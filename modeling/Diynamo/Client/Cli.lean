import Diynamo.Client.Public
import Diynamo.Lib.Words

/-! # The command line

`run_command` trims the line, splits it at white space and joins the words of a value again with
single spaces (`parseLine`); a command is then a call of the client (`runCommand`). What is typed
after `put` reaches the coordinator unchanged if and only if the key is one that a URL carries, the
value has no other white space than single spaces between its words, and the body is not too large
(`typed_iff`). -/

namespace Diynamo.Client.Cli

open Diynamo.Lib.Utf8 Diynamo.Lib.Words Diynamo.Store.RocksDb Diynamo.Server.Router
  Diynamo.Server.Handlers Diynamo.Api.Types Diynamo.Client.Http Diynamo.Client.Public
  Diynamo.Coordinator.Service

/-- The characters with the Unicode property `White_Space`. -/
def isWhitespace (c : Char) : Bool :=
  c.toNat ∈ [9, 10, 11, 12, 13, 32, 133, 160, 5760, 8232, 8233, 8239, 8287, 12288] ||
    (8192 ≤ c.toNat && c.toNat ≤ 8202)

inductive Command where
  | help
  | exit
  | put (key value : String)
  | get (key : String)
deriving DecidableEq, Repr

/-- The words with single spaces between them. -/
def joinWords (ws : List (List Char)) : String := String.ofList ([' '].intercalate ws)

/-- **The command of a line**, if there is one. -/
def parseLine (line : String) : Except String (Option Command) :=
  if trim isWhitespace line.toList = [] then .ok none
  else
    match words isWhitespace (trim isWhitespace line.toList) with
    | [] => .error "expected a command"
    | cmd :: parts =>
      if cmd = "help".toList ∨ cmd = "?".toList then .ok (some .help)
      else if cmd = "exit".toList ∨ cmd = "quit".toList then .ok (some .exit)
      else if cmd = "put".toList then
        match parts with
        | [] => .error "usage: put <key> <value>"
        | key :: value =>
          if joinWords value = "" then .error "usage: put <key> <value>"
          else .ok (some (.put (String.ofList key) (joinWords value)))
      else if cmd = "get".toList then
        match parts with
        | [key] => .ok (some (.get (String.ofList key)))
        | _ => .error "usage: get <key>"
      else .error ("unknown command: " ++ String.ofList cmd ++ " (try help)")

/-- What a command prints. -/
inductive Shown where
  | nothing
  | help
  | exit
  | putOk
  | value (value : String)
deriving DecidableEq, Repr

inductive CliError where
  | usage (text : String)
  | call (e : CallError)
deriving DecidableEq, Repr

/-- **`run_command`**. -/
def runCommand {σ : Type} (lib : UrlLibrary) (c : KvClient) (sv : AppState σ) (s : σ)
    (line : String) (nowMillis : ℕ) : Except CliError Shown × σ :=
  match parseLine line with
  | .error text => (.error (.usage text), s)
  | .ok none => (.ok .nothing, s)
  | .ok (some .help) => (.ok .help, s)
  | .ok (some .exit) => (.ok .exit, s)
  | .ok (some (.put key value)) =>
    match put lib c sv s key value nowMillis with
    | (.ok (), s') => (.ok .putOk, s')
    | (.error e, s') => (.error (.call e), s')
  | .ok (some (.get key)) =>
    match get lib c sv s key with
    | (.ok response, s') => (.ok (.value response.value), s')
    | (.error e, s') => (.error (.call e), s')

/-! ### Lines -/

/-- A line with words is not empty, and is read by its words. -/
theorem words_trim_line {line : String} {cmd : List Char} {parts : List (List Char)}
    (h : words isWhitespace line.toList = cmd :: parts) :
    trim isWhitespace line.toList ≠ [] ∧
      words isWhitespace (trim isWhitespace line.toList) = cmd :: parts := by
  rw [words_trim, h]
  refine ⟨fun he => ?_, rfl⟩
  have ht := words_trim (p := isWhitespace) line.toList
  rw [he, words_nil, h] at ht
  cases ht

/-- The value that a typed one is stored as. -/
def respaced (value : String) : String := joinWords (words isWhitespace value.toList)

theorem parseLine_put {key : String} (hk : IsWord isWhitespace key.toList) (value : String) :
    parseLine ("put " ++ key ++ " " ++ value) =
      if respaced value = "" then .error "usage: put <key> <value>"
      else .ok (some (.put key (respaced value))) := by
  have hline : ("put " ++ key ++ " " ++ value).toList =
      "put".toList ++ ' ' :: (key.toList ++ ' ' :: value.toList) := by
    simp
  have hwords : words isWhitespace ("put " ++ key ++ " " ++ value).toList =
      "put".toList :: key.toList :: words isWhitespace value.toList := by
    rw [hline, words_append_cons _ _ (by decide), words_append_cons _ _ (by decide),
      words_of_isWord (w := "put".toList) ⟨by decide, by simp [isWhitespace]⟩, words_of_isWord hk]
    rfl
  obtain ⟨hne, hw⟩ := words_trim_line hwords
  unfold parseLine respaced
  rw [if_neg hne, hw]
  dsimp only
  rw [if_neg (by decide), if_neg (by decide), if_pos rfl, String.ofList_toList]

theorem parseLine_get {key : String} (hk : IsWord isWhitespace key.toList) :
    parseLine ("get " ++ key) = .ok (some (.get key)) := by
  have hline : ("get " ++ key).toList = "get".toList ++ ' ' :: key.toList := by simp
  have hwords : words isWhitespace ("get " ++ key).toList = ["get".toList, key.toList] := by
    rw [hline, words_append_cons _ _ (by decide),
      words_of_isWord (w := "get".toList) ⟨by decide, by simp [isWhitespace]⟩, words_of_isWord hk]
    rfl
  obtain ⟨hne, hw⟩ := words_trim_line hwords
  unfold parseLine
  rw [if_neg hne, hw]
  dsimp only
  rw [if_neg (by decide), if_neg (by decide), if_neg (by decide), if_pos rfl, String.ofList_toList]

/-! ### What is typed -/

/-- The words of the value have single spaces between them, and nothing around them. -/
def SingleSpaced (value : String) : Prop := value ≠ "" ∧ respaced value = value

theorem singleSpaced_joinWords {ws : List (List Char)} (h : ∀ w ∈ ws, IsWord isWhitespace w)
    (hne : joinWords ws ≠ "") : SingleSpaced (joinWords ws) := by
  have hlist : (joinWords ws).toList = [' '].intercalate ws := String.toList_ofList
  refine ⟨hne, ?_⟩
  rw [respaced, hlist, words_intercalate (by decide) h]

/-- **Every put that is read from a line** has a key without white space and a value with single
spaces. -/
theorem singleSpaced_of_parseLine {line key value : String}
    (h : parseLine line = .ok (some (.put key value))) :
    IsWord isWhitespace key.toList ∧ SingleSpaced value := by
  unfold parseLine at h
  by_cases hne : trim isWhitespace line.toList = []
  · rw [if_pos hne] at h
    cases h
  rw [if_neg hne] at h
  split at h
  · cases h
  · next cmd parts hw =>
    have hword : ∀ w ∈ parts, IsWord isWhitespace w := fun w hm =>
      isWord_of_mem_words (hw ▸ List.mem_cons_of_mem _ hm)
    split_ifs at h
    · cases h
    · cases h
    · split at h
      · cases h
      · next k ws =>
        split_ifs at h with hne
        cases h
        rw [String.toList_ofList]
        exact ⟨hword k List.mem_cons_self,
          singleSpaced_joinWords (fun w hm => hword w (List.mem_cons_of_mem _ hm)) hne⟩
    · split at h <;> cases h

/-- What is printed for the end of a put. -/
def putShown (r : Except StoreError Unit) : Except CliError Shown :=
  match putTold r with
  | .ok () => .ok .putOk
  | .error e => .error (.call e)

/-- What is printed for the end of a get. -/
def getShown (key : String) (r : Except StoreError (Option VersionedValue)) :
    Except CliError Shown :=
  match getTold key r with
  | .ok response => .ok (.value response.value)
  | .error e => .error (.call e)

/-- **What is typed is what happens**: whatever the coordinator does, the lines with this key and
value do it for exactly them, and show how it has ended. -/
structure Typed (lib : UrlLibrary) (c : KvClient) (key value : String) : Prop where
  put : ∀ {σ : Type} (sv : AppState σ) (s : σ) (now : ℕ), (sv.node s).faults.blockPublic = false →
    runCommand lib c sv s ("put " ++ key ++ " " ++ value) now =
      (putShown (sv.put (utf8 key) (utf8 value) s).1, (sv.put (utf8 key) (utf8 value) s).2)
  get : ∀ {σ : Type} (sv : AppState σ) (s : σ) (now : ℕ), (sv.node s).faults.blockPublic = false →
    runCommand lib c sv s ("get " ++ key) now =
      (getShown key (sv.get (utf8 key) s).1, (sv.get (utf8 key) s).2)

section Faithful

variable {lib : UrlLibrary} {a : Authority} {key value : String}

theorem ne_empty_of_isWord (hk : IsWord isWhitespace key.toList) : key ≠ "" := by
  rintro rfl
  exact hk.1 rfl

theorem typed_of_safe (hk : IsWord isWhitespace key.toList) (hs : KeySafe key)
    (hu : a.UrlFits ("/kv/" ++ key)) (hv : SingleSpaced value) (hfits : Fits (.put ⟨value⟩)) :
    Typed lib (.withHttp a.baseUrl) key value := by
  have hf : Faithful lib (.withHttp a.baseUrl) key :=
    faithful_of_safe (ne_empty_of_isWord hk) hs hu
  constructor
  · intro σ sv s now hb
    have hparse := parseLine_put hk value
    rw [hv.2, if_neg hv.1] at hparse
    simp only [runCommand, hparse, hf.put sv s value now hfits hb, putShown]
    cases putTold (sv.put (utf8 key) (utf8 value) s).1 <;> rfl
  · intro σ sv s now hb
    simp only [runCommand, parseLine_get hk, hf.get sv s hb, getShown]
    cases getTold key (sv.get (utf8 key) s).1 <;> rfl

/-- **A typed put that is recorded** is one of the coordinator, for the respaced value. -/
theorem handler_of_typed (hk : IsWord isWhitespace key.toList)
    (ht : Typed lib (.withHttp a.baseUrl) key value) :
    SingleSpaced value ∧ Fits (.put ⟨value⟩) ∧
      lib.handler .put (kvUrl (.withHttp a.baseUrl) key) = some (.putKv key) := by
  have hput := congrArg Prod.snd (ht.put recording (Node.empty, none) 0 rfl)
  have hparse := parseLine_put hk value
  by_cases he : respaced value = ""
  · rw [if_pos he] at hparse
    simp [runCommand, hparse, recording] at hput
  · rw [if_neg he] at hparse
    have hsnd : (runCommand lib (.withHttp a.baseUrl) recording (Node.empty, none)
        ("put " ++ key ++ " " ++ value) 0).2 =
          (sendPut lib recording (Node.empty, none) (kvUrl (.withHttp a.baseUrl) key)
            (.put ⟨respaced value⟩) 0).2 := by
      rw [← snd_put]
      simp only [runCommand, hparse]
      split <;> simp_all
    rw [hsnd] at hput
    obtain ⟨k, hr, hkey, hval, hfits⟩ := handler_of_recorded (congrArg Prod.snd hput)
    obtain rfl := utf8_injective hkey
    have hval' : respaced value = value := (utf8_injective hval).symm
    rw [hval'] at he hfits
    exact ⟨⟨he, hval'⟩, hfits, hr⟩

end Faithful

/-- **What can be typed.** The lines `put key value` and `get key` do what they say, for a key
without white space, if and only if the key is one that a URL carries, the words of the value have
single spaces between them, and the body is not too large. -/
theorem typed_iff (lib : UrlLibrary) (a : Authority) {key value : String}
    (hk : IsWord isWhitespace key.toList) :
    Typed lib (.withHttp a.baseUrl) key value ↔
      KeySafe key ∧ a.UrlFits ("/kv/" ++ key) ∧ SingleSpaced value ∧ Fits (.put ⟨value⟩) := by
  constructor
  · intro ht
    obtain ⟨hv, hfits, hr⟩ := handler_of_typed hk ht
    have h := (handler_kvUrl (ne_empty_of_isWord hk) (.putKv key) rfl rfl).mp hr
    exact ⟨h.2, h.1, hv, hfits⟩
  · rintro ⟨hs, hu, hv, hfits⟩
    exact typed_of_safe hk hs hu hv hfits

/-- A value with one space between its words, and with two. -/
theorem typed_iff_spaces : Typed (urlLibrary .ascii) (.withHttp privateNode.baseUrl) "k" "a b" ∧
    ¬ Typed (urlLibrary .ascii) (.withHttp privateNode.baseUrl) "k" "a  b" := by
  have hk : IsWord isWhitespace "k".toList := ⟨by decide, by simp [isWhitespace]⟩
  have h1 : respaced "a b" = "a b" := by decide +kernel
  have h2 : respaced "a  b" ≠ "a  b" := by decide +kernel
  exact ⟨(typed_iff (urlLibrary .ascii) privateNode hk).mpr
      ⟨by decide, by decide, ⟨by decide, h1⟩, by decide⟩,
    fun h => h2 ((typed_iff (urlLibrary .ascii) privateNode hk).mp h).2.2.1.2⟩

end Diynamo.Client.Cli
