import Diynamo.Client.Http
import Diynamo.Coordinator.HandoffLoop
import Diynamo.Lib.Url

/-! # The base URLs of nodes

A roster entry and the handoff loop format the same base URL from an IP address and a port, and the
client appends the path of a request. The address is written as the standard library displays it,
and that has no brackets around an IPv6 address: its colons are then read as the one before the
port, and the string is no URL. So a request URL denotes the address, the port and the path exactly
for IPv4 addresses (`nodeUrls_denote_iff`), as far as a target id in the path is carried at all. -/

namespace Diynamo.Coordinator.NodeUrl

open Diynamo.Lib.Utf8 Diynamo.Lib.Percent Diynamo.Lib.UrlPath Diynamo.Lib.Url
  Diynamo.Store.Hints Diynamo.Cluster.Ring Diynamo.Cluster.Delegate Diynamo.Server.Router
  Diynamo.Client.Http Diynamo.Coordinator.HandoffLoop

/-! ### How addresses are displayed -/

/-- Dotted decimal. -/
def displayIpv4 (a b c d : UInt8) : String :=
  decimal a.toNat ++ "." ++ decimal b.toNat ++ "." ++ decimal c.toNat ++ "." ++ decimal d.toNat

/-- Lower-case hexadecimal digits, without leading zeros. -/
def lowerHex (n : ℕ) : String := String.ofList (Nat.toDigits 16 n)

/-- The 16-bit segments of the bytes of an address. -/
def segments : Bytes → List ℕ
  | a :: b :: s => (256 * a.toNat + b.toNat) :: segments s
  | _ => []

/-- A run of zero segments. -/
structure Span where
  start : ℕ
  len : ℕ

/-- One step of the search: the longest run so far and the current one, at a segment and its
index. -/
def zeroStep (acc : Span × Span) (segment : ℕ × ℕ) : Span × Span :=
  if segment.1 = 0 then
    let current : Span :=
      ⟨if acc.2.len = 0 then segment.2 else acc.2.start, acc.2.len + 1⟩
    (if acc.1.len < current.len then current else acc.1, current)
  else (acc.1, ⟨0, 0⟩)

/-- The first one of the longest runs of zeros. -/
def zeroes (segs : List ℕ) : Span := (segs.zipIdx.foldl zeroStep (⟨0, 0⟩, ⟨0, 0⟩)).1

/-- Segments with colons between them. -/
def fmtSubslice : List ℕ → String
  | [] => ""
  | first :: tail => lowerHex first ++ tail.foldr (fun segment s => ":" ++ lowerHex segment ++ s) ""

/-- **The display of an IPv6 address**: an IPv4-mapped one ends in dotted decimal, else the longest
run of at least two zeros is left out. -/
def displayIpv6 (o : Vector UInt8 16) : String :=
  if (o.toList.take 10).all (· = 0) ∧ o[10] = 0xFF ∧ o[11] = 0xFF then
    "::ffff:" ++ displayIpv4 o[12] o[13] o[14] o[15]
  else
    let segs := segments o.toList
    let z := zeroes segs
    if 1 < z.len then
      fmtSubslice (segs.take z.start) ++ "::" ++ fmtSubslice (segs.drop (z.start + z.len))
    else fmtSubslice segs

def displayIp : IpAddr → String
  | .v4 o => displayIpv4 (o.get 0) (o.get 1) (o.get 2) (o.get 3)
  | .v6 o => displayIpv6 o

/-! ### The URLs -/

/-- `http://{ip}:{port}`. -/
def formatBaseUrl (ip : IpAddr) (port : UInt16) : String :=
  "http://" ++ (displayIp ip ++ ":" ++ decimal port.toNat)

def httpBaseUrl (m : MemberInfo) : String := formatBaseUrl m.gossipAddr.ip m.forwardPort

def internalBaseUrl (m : MemberInfo) : String := httpBaseUrl m

/-- The base URL of the handoff loop, for the address and the metadata of a gossip state. -/
def nodeUrl (addr : SocketAddr) (m : NodeMeta) : String := formatBaseUrl addr.ip m.httpPort

/-- The internal paths of the client, for one key. -/
inductive InternalPath where
  | kv
  | kvVersioned
  | hint (targetId : String)
deriving DecidableEq, Repr

namespace InternalPath

/-- The URL that the client formats. -/
def url (c : KvClient) (key : String) : InternalPath → String
  | .kv => c.internalKvUrl key
  | .kvVersioned => c.internalKvVersionedUrl key
  | .hint targetId => c.hintUrl targetId key

/-- The path as it is formatted. -/
def text (key : String) : InternalPath → String
  | .kv => "/internal/kv/" ++ key
  | .kvVersioned => "/internal/kv-versioned/" ++ key
  | .hint targetId => "/internal/hint/" ++ (targetId ++ ("/" ++ key))

/-- The segments of the path. -/
def segments (key : String) : InternalPath → List Bytes
  | .kv => [utf8 "internal", utf8 "kv", utf8 key]
  | .kvVersioned => [utf8 "internal", utf8 "kv-versioned", utf8 key]
  | .hint targetId => [utf8 "internal", utf8 "hint", utf8 targetId, utf8 key]

/-- The target id is one that a path carries. -/
def Carried : InternalPath → Prop
  | .hint targetId => TargetSafe targetId
  | _ => True

end InternalPath

/-- The host that an address is. -/
def hostOf : IpAddr → Host
  | .v4 o => .ipv4 (ipv4Value ([o.get 0, o.get 1, o.get 2, o.get 3].map UInt8.toNat))
  | .v6 o => .ipv6 o

def isIpv4 : IpAddr → Bool
  | .v4 _ => true
  | .v6 _ => false

/-- **The URL denotes a path at an address and a port.** -/
def Denotes (lib : HostLibrary) (url : String) (ip : IpAddr) (port : UInt16)
    (segs : List Bytes) : Prop :=
  ∃ u, parse lib (utf8 url) = some u ∧ u.host = hostOf ip ∧ u.portOrDefault = port.toNat ∧
    u.path.map percentDecode = segs

/-- Letters and digits; outside ASCII every character counts as one. -/
def Alphanumeric (key : String) : Prop := ∀ c ∈ key.toList, c.isAlphanum ∨ 127 < c.val.toNat

instance (key : String) : Decidable (Alphanumeric key) :=
  inferInstanceAs (Decidable (∀ c ∈ key.toList, c.isAlphanum ∨ 127 < c.val.toNat))

/-! ### Characters of an address -/

/-- The characters of a displayed address. -/
def addressChars : String := "0123456789abcdef:."

/-- The string has only characters of the other one. -/
def Over (s t : String) : Prop := ∀ c ∈ s.toList, c ∈ t.toList

instance (s t : String) : Decidable (Over s t) :=
  inferInstanceAs (Decidable (∀ c ∈ s.toList, c ∈ t.toList))

theorem Over.append {s s' t : String} (h : Over s t) (h' : Over s' t) : Over (s ++ s') t := by
  intro c hc
  rw [String.toList_append] at hc
  exact (List.mem_append.mp hc).elim (h c) (h' c)

theorem digitChar_mem_addressChars : ∀ d < 16, Nat.digitChar d ∈ addressChars.toList := by decide

theorem over_lowerHex (n : ℕ) : Over (lowerHex n) addressChars := by
  intro c hc
  rw [lowerHex, String.toList_ofList] at hc
  exact forall_mem_toDigits (by decide) digitChar_mem_addressChars n c hc

theorem over_decimal (n : ℕ) : Over (decimal n) addressChars := by
  have hd : ∀ d < 10, Nat.digitChar d ∈ addressChars.toList := fun d hd =>
    digitChar_mem_addressChars d (hd.trans (by decide))
  intro c hc
  rw [decimal, Nat.toList_repr] at hc
  exact forall_mem_toDigits (by decide) hd n c hc

theorem over_displayIpv4 (a b c d : UInt8) : Over (displayIpv4 a b c d) addressChars := by
  have hdot : Over "." addressChars := by simp [Over, addressChars]
  exact ((((((over_decimal _).append hdot).append (over_decimal _)).append hdot).append
    (over_decimal _)).append hdot).append (over_decimal _)

theorem over_fmtSubslice (segs : List ℕ) : Over (fmtSubslice segs) addressChars := by
  have hcolon : Over ":" addressChars := by simp [Over, addressChars]
  have htail : ∀ tail : List ℕ, Over
      (tail.foldr (fun segment s => ":" ++ lowerHex segment ++ s) "") addressChars := by
    intro tail
    induction tail with
    | nil => intro c hc; cases hc
    | cons segment tail ih => exact (hcolon.append (over_lowerHex segment)).append ih
  cases segs with
  | nil => intro c hc; cases hc
  | cons first tail => exact (over_lowerHex first).append (htail tail)

theorem over_displayIpv6 (o : Vector UInt8 16) : Over (displayIpv6 o) addressChars := by
  have hmapped : Over "::ffff:" addressChars := by simp [Over, addressChars]
  have hgap : Over "::" addressChars := by simp [Over, addressChars]
  unfold displayIpv6
  dsimp only
  split_ifs
  · exact hmapped.append (over_displayIpv4 _ _ _ _)
  · exact ((over_fmtSubslice _).append hgap).append (over_fmtSubslice _)
  · exact over_fmtSubslice _

theorem over_displayIp (ip : IpAddr) : Over (displayIp ip) addressChars := by
  cases ip with
  | v4 o => exact over_displayIpv4 _ _ _ _
  | v6 o => exact over_displayIpv6 o

/-- **An IPv6 address is displayed with a colon.** -/
theorem colon_mem_displayIpv6 (o : Vector UInt8 16) : ':' ∈ (displayIpv6 o).toList := by
  unfold displayIpv6
  dsimp only
  split_ifs
  · simp
  · simp
  · -- the eight segments have colons between them
    have hlen : o.toList.length = 16 := by simp
    obtain ⟨x, y, segs, hsegs⟩ : ∃ x y segs, NodeUrl.segments o.toList = x :: y :: segs := by
      match ho : o.toList, hlen with
      | a :: b :: c :: d :: rest, _ => exact ⟨_, _, _, rfl⟩
    rw [hsegs]
    simp [fmtSubslice]

/-! ### What the URLs denote -/

variable {lib : HostLibrary}

/-- The authority of a base URL. -/
def authority (ip : IpAddr) (port : UInt16) : Bytes :=
  utf8 (displayIp ip) ++ colon :: utf8 (decimal port.toNat)

theorem utf8_formatBaseUrl (ip : IpAddr) (port : UInt16) :
    utf8 (formatBaseUrl ip port) = utf8 "http://" ++ authority ip port := by
  have hcolon : utf8 ":" = [colon] := by decide
  rw [formatBaseUrl, utf8_append, utf8_append, utf8_append, hcolon, List.append_assoc]
  rfl

theorem mem_authority {ip : IpAddr} {port : UInt16} {b : UInt8} (hb : b ∈ authority ip port) :
    b ∈ utf8 addressChars := by
  have hcolon : colon ∈ utf8 addressChars := by decide
  rcases List.mem_append.mp hb with hb | hb
  · exact utf8_subset (over_displayIp ip) hb
  · rcases List.mem_cons.mp hb with rfl | hb
    · exact hcolon
    · exact utf8_subset (over_decimal _) hb

theorem atSign_not_mem_authority (ip : IpAddr) (port : UInt16) : atSign ∉ authority ip port :=
  fun h => absurd (mem_authority h) (by decide)

/-- A base URL and a path are parsed as an authority and a path. -/
theorem parse_formatBaseUrl (ip : IpAddr) (port : UInt16) {path : Bytes}
    (hp : path.head? = some slash) :
    parse lib (utf8 (formatBaseUrl ip port) ++ path) =
      (parseAuthority lib (authority ip port)).map fun a =>
        ⟨a.1, a.2, pathSegments path, suffixOf path⟩ := by
  have hbyte : ∀ b ∈ utf8 addressChars, inAuthority b = true := by decide +kernel
  rw [utf8_formatBaseUrl, List.append_assoc]
  exact parse_http (by simp [authority]) (fun b hb => hbyte b (mem_authority hb)) hp

/-- **An IPv4 address** is read back, with its port. -/
theorem parseAuthority_ipv4 (o : Vector UInt8 4) (port : UInt16) :
    parseAuthority lib (authority (.v4 o) port) =
      some (hostOf (.v4 o), if port.toNat = 80 then none else some port.toNat) :=
  (Authority.mk o port).parseAuthority_hostPort lib

/-- **An IPv6 address without brackets** has a colon before the one of the port. -/
theorem parseAuthority_ipv6 (o : Vector UInt8 16) (port : UInt16) :
    parseAuthority lib (authority (.v6 o) port) = none := by
  have hmem : colon ∈ utf8 (displayIpv6 o) :=
    (mem_utf8_iff (c := ':') (by decide)).mpr (colon_mem_displayIpv6 o)
  obtain ⟨host, rest, hsplit, hhost⟩ := List.eq_append_cons_of_mem hmem
  have hat := atSign_not_mem_authority (.v6 o) port
  have hbracket : leftBracket ∉ authority (.v6 o) port :=
    fun h => absurd (mem_authority h) (by decide)
  have hauth : authority (.v6 o) port =
      host ++ colon :: (rest ++ colon :: utf8 (decimal port.toNat)) := by
    rw [authority, displayIp, hsplit, List.append_assoc, List.cons_append]
  rw [hauth] at hat hbracket ⊢
  exact parseAuthority_eq_none hat hhost (fun h => hbracket (List.mem_append_left _ h)) (by simp)

/-! ### The other models of a base URL -/

/-- The URL of the announcement that a gossip state makes is its `nodeUrl`. -/
theorem nodeUrl_of_announcement {e : Event} {a : Announcement} (h : e.announcement = some a) :
    ∃ m, NodeMeta.fromBytes e.metadata = some m ∧
      formatBaseUrl a.url.ip a.url.port = nodeUrl e.addr m := by
  rw [Event.announcement] at h
  split at h
  · cases h
  · cases h
  · obtain ⟨m, hm, rfl⟩ := Option.map_eq_some_iff.mp h
    exact ⟨m, hm, rfl⟩
  · obtain ⟨m, hm, rfl⟩ := Option.map_eq_some_iff.mp h
    exact ⟨m, hm, rfl⟩

theorem baseUrl_authority (a : Authority) : a.baseUrl = formatBaseUrl (.v4 a.octets) a.port := rfl

/-! ### Alphanumeric keys -/

/-- The byte of an ASCII letter or digit, or of a character outside ASCII. -/
def IsWord (b : UInt8) : Prop :=
  (48 ≤ b.toNat ∧ b.toNat ≤ 57) ∨ (65 ≤ b.toNat ∧ b.toNat ≤ 90) ∨
    (97 ≤ b.toNat ∧ b.toNat ≤ 122) ∨ 128 ≤ b.toNat

theorem isWord_of_mem {key : String} (hkey : Alphanumeric key) {b : UInt8} (hb : b ∈ utf8 key) :
    IsWord b := by
  rw [utf8_eq_flatMap] at hb
  obtain ⟨c, hc, hb⟩ := List.mem_flatMap.mp hb
  by_cases hascii : c.val.toNat ≤ 127
  · have halnum := (hkey c hc).resolve_right (by omega)
    rw [utf8EncodeChar_ascii hascii, List.mem_singleton] at hb
    have hval : b.toNat = c.val.toNat := by
      rw [hb, UInt8.toNat_ofNat']
      omega
    change ((decide (65 ≤ c.val ∧ c.val ≤ 90) || decide (97 ≤ c.val) && decide (c.val ≤ 122)) ||
      decide (48 ≤ c.val) && decide (c.val ≤ 57)) = true at halnum
    simp only [Bool.or_eq_true, Bool.and_eq_true, decide_eq_true_eq, UInt32.le_iff_toNat_le,
      UInt32.reduceToNat] at halnum
    unfold IsWord
    omega
  · exact Or.inr (Or.inr (Or.inr (le_of_mem_utf8EncodeChar (by omega) hb)))

/-- A byte is not changed to one below the letters. -/
theorem eq_of_toLower {b c : UInt8} (hc : c.toNat < 65) (h : toLower b = c) : b = c := by
  unfold toLower at h
  split_ifs at h with hb
  · have hle := hb.2
    have hge := hb.1
    have he := congrArg UInt8.toNat h
    rw [UInt8.toNat_add] at he
    simp only [UInt8.le_iff_toNat_le, UInt8.reduceToNat] at hle hge he
    omega
  · exact h

/-- A dot segment has a dot or a percent sign. -/
theorem mem_of_isDot {s : Bytes} (h : isDot s = true) : dot ∈ s ∨ percent ∈ s := by
  have hnames : ∀ x ∈ [".", "%2e", "..", ".%2e", "%2e.", "%2e%2e"].map utf8,
      x.head? = some dot ∨ x.head? = some percent := by decide
  have hmem : s.map toLower ∈ [".", "%2e", "..", ".%2e", "%2e.", "%2e%2e"].map utf8 := by
    simp only [isDot, isSingleDot, isDoubleDot, Bool.or_eq_true, decide_eq_true_eq] at h
    rcases h with h | h
    · exact List.mem_append_left _ h
    · exact List.mem_append_right (["." , "%2e"].map utf8) h
  have hhead := hnames _ hmem
  cases s with
  | nil => simp at hhead
  | cons b s =>
    simp only [List.map_cons, List.head?_cons, Option.some.injEq] at hhead
    rcases hhead with hb | hb
    · exact Or.inl (by rw [eq_of_toLower (by decide) hb]; exact List.mem_cons_self)
    · exact Or.inr (by rw [eq_of_toLower (by decide) hb]; exact List.mem_cons_self)

theorem plain_of_isWord {s : Bytes} (h : ∀ b ∈ s, IsWord b) : Plain s := by
  have hne : ∀ b ∈ s, ∀ c : UInt8, c.toNat < 48 → b ≠ c := by
    rintro b hb c hc rfl
    have := h b hb
    unfold IsWord at this
    omega
  refine ⟨fun b hb => ?_, hasEscape_of_not_mem fun hp => hne _ hp percent (by decide) rfl, ?_⟩
  · have hw := h b hb
    have hne' : ∀ c : UInt8, ¬ IsWord c → b ≠ c := fun c hc he => hc (he ▸ hw)
    simp only [isSeparator, endsPath, isTabOrNewline, Bool.or_eq_false_iff, decide_eq_false_iff_not]
    unfold IsWord at hne'
    exact ⟨⟨hne' _ (by decide), hne' _ (by decide)⟩, ⟨hne' _ (by decide), hne' _ (by decide)⟩,
      ⟨hne' _ (by decide), hne' _ (by decide)⟩, hne' _ (by decide)⟩
  · rw [Bool.eq_false_iff]
    intro hd
    rcases mem_of_isDot hd with hm | hm
    · exact hne _ hm dot (by decide) rfl
    · exact hne _ hm percent (by decide) rfl

theorem endsVisibly_of_isWord (segs : List Bytes) {s : Bytes} (h : ∀ b ∈ s, IsWord b) :
    EndsVisibly (joinPath (segs ++ [s])) := by
  by_cases hs : s = []
  · rw [hs, joinPath_concat]
    intro b hb
    rw [List.getLast?_concat] at hb
    rw [← Option.some.inj hb]
    decide
  · rw [endsVisibly_joinPath_concat segs hs]
    intro b hb
    have hw := h b (List.mem_of_getLast? hb)
    unfold IsWord at hw
    simp only [isC0OrSpace, decide_eq_false_iff_not, UInt8.le_iff_toNat_le, UInt8.reduceToNat]
    omega

/-! ### Internal paths -/

namespace InternalPath

variable (p : InternalPath) (key : String)

theorem url_eq (c : KvClient) : p.url c key = c.baseUrl ++ p.text key := by
  cases p with
  | kv => exact String.append_assoc
  | kvVersioned => exact String.append_assoc
  | hint targetId =>
    change c.baseUrl ++ "/internal/hint/" ++ targetId ++ "/" ++ key =
      c.baseUrl ++ ("/internal/hint/" ++ (targetId ++ ("/" ++ key)))
    rw [String.append_assoc, String.append_assoc, String.append_assoc]

/-- Literal segments, then the key. -/
theorem utf8_literal_append {pre : String} {lits : List Bytes}
    (hpre : utf8 pre = joinPath lits ++ [slash]) (s : String) :
    utf8 (pre ++ s) = joinPath (lits ++ [utf8 s]) := by
  rw [utf8_append, hpre, joinPath_concat, List.append_assoc]
  rfl

theorem utf8_text : utf8 (p.text key) = joinPath (p.segments key) := by
  cases p with
  | kv =>
    have hpre : utf8 "/internal/kv/" = joinPath [utf8 "internal", utf8 "kv"] ++ [slash] := by decide
    exact utf8_literal_append hpre key
  | kvVersioned =>
    have hpre : utf8 "/internal/kv-versioned/" =
        joinPath [utf8 "internal", utf8 "kv-versioned"] ++ [slash] := by decide
    exact utf8_literal_append hpre key
  | hint targetId =>
    have hpre : utf8 "/internal/hint/" = joinPath [utf8 "internal", utf8 "hint"] ++ [slash] := by
      decide
    have hsep : utf8 "/" = joinPath [] ++ [slash] := by decide
    have hsplit : segments key (.hint targetId) =
        [utf8 "internal", utf8 "hint"] ++ [utf8 targetId] ++ [utf8 key] := rfl
    change utf8 ("/internal/hint/" ++ (targetId ++ ("/" ++ key))) = _
    rw [utf8_append, utf8_append, hpre, utf8_literal_append hsep, hsplit, joinPath_concat,
      joinPath_concat]
    simp only [joinPath, List.append_assoc, List.flatMap_cons, List.flatMap_nil, List.append_nil,
      List.cons_append, List.nil_append]

theorem head?_toList_text : (p.text key).toList.head? = some '/' := by
  have hhead : ∀ s t : String, s.toList.head? = some '/' → (s ++ t).toList.head? = some '/' := by
    intro s t h
    rw [String.toList_append, List.head?_append, h, Option.some_or]
  cases p <;> exact hhead _ _ (by decide)

theorem head?_text : (utf8 (p.text key)).head? = some slash :=
  head?_utf8 (p.head?_toList_text key) (by decide)

theorem segments_ne_nil : p.segments key ≠ [] := by
  cases p <;> exact List.cons_ne_nil _ _

variable {p key}

/-- An alphanumeric key is carried, so it is up to the target id. -/
theorem lossless_segments_iff (hkey : Alphanumeric key) :
    Lossless (p.segments key) ↔ p.Carried := by
  have hword : ∀ b ∈ utf8 key, IsWord b := fun b hb => isWord_of_mem hkey hb
  have hplain := plain_of_isWord hword
  have hlit : ∀ s ∈ literals, Plain s := literal_plain
  have hi := hlit (utf8 "internal") (by decide)
  have hk := hlit (utf8 "kv") (by decide)
  have hv := hlit (utf8 "kv-versioned") (by decide)
  have hh := hlit (utf8 "hint") (by decide)
  unfold Lossless
  cases p with
  | kv =>
    have hend := endsVisibly_of_isWord [utf8 "internal", utf8 "kv"] hword
    exact iff_of_true ⟨by simp [segments, hi, hk, hplain], hend⟩ trivial
  | kvVersioned =>
    have hend := endsVisibly_of_isWord [utf8 "internal", utf8 "kv-versioned"] hword
    exact iff_of_true ⟨by simp [segments, hi, hv, hplain], hend⟩ trivial
  | hint targetId =>
    have hend := endsVisibly_of_isWord [utf8 "internal", utf8 "hint", utf8 targetId] hword
    refine ⟨fun h => h.1 (utf8 targetId) (by simp [segments]), fun h => ⟨?_, hend⟩⟩
    simp [segments, hi, hh, hplain, show Plain (utf8 targetId) from h]

end InternalPath

/-- The client trims nothing of a base URL. -/
theorem withHttp_formatBaseUrl (ip : IpAddr) (port : UInt16) :
    (KvClient.withHttp (formatBaseUrl ip port)).baseUrl = formatBaseUrl ip port := by
  unfold KvClient.withHttp formatBaseUrl
  rw [← String.append_assoc]
  exact trimEndMatches_append_decimal _ _

/-- **A URL of an IPv6 address** is not sent. -/
theorem requestUrl_ipv6 (o : Vector UInt8 16) (port : UInt16) {path : String}
    (hp : path.toList.head? = some '/') :
    requestUrl lib (formatBaseUrl (.v6 o) port ++ path) = none := by
  rw [requestUrl, utf8_append, parse_formatBaseUrl (.v6 o) port (head?_utf8 hp (by decide)),
    parseAuthority_ipv6]
  rfl

/-- **A request URL denotes its path at the address and the port**, if and only if the address is an
IPv4 one and the target id is carried. -/
theorem denotes_iff (ip : IpAddr) (port : UInt16) (p : InternalPath) {key : String}
    (hkey : Alphanumeric key) :
    Denotes lib (p.url (.withHttp (formatBaseUrl ip port)) key) ip port (p.segments key) ↔
      isIpv4 ip = true ∧ p.Carried := by
  have hparse : parse lib (utf8 (formatBaseUrl ip port) ++ utf8 (p.text key)) = _ :=
    parse_formatBaseUrl ip port (p.head?_text key)
  unfold Denotes
  rw [p.url_eq, withHttp_formatBaseUrl, utf8_append, hparse]
  cases ip with
  | v6 o =>
    rw [parseAuthority_ipv6]
    refine iff_of_false ?_ (by simp [isIpv4])
    rintro ⟨u, hu, -⟩
    cases hu
  | v4 o =>
    have hport : (HttpUrl.mk (hostOf (.v4 o)) (if port.toNat = 80 then none else some port.toNat)
        (pathSegments (utf8 (p.text key))) (suffixOf (utf8 (p.text key)))).portOrDefault =
        port.toNat := by
      unfold HttpUrl.portOrDefault
      dsimp only
      split_ifs with h
      · rw [h]; rfl
      · rfl
    rw [parseAuthority_ipv4, ← InternalPath.lossless_segments_iff hkey,
      ← decoded_pathSegments_joinPath_iff (p.segments_ne_nil key), ← p.utf8_text key]
    constructor
    · rintro ⟨u, hu, -, -, hpath⟩
      obtain rfl := Option.some.inj hu
      exact ⟨rfl, hpath⟩
    · rintro ⟨-, hpath⟩
      exact ⟨_, rfl, rfl, hport, hpath⟩

/-- **Node base URLs.** The URLs that the client formats from the base URL of a roster entry, and
from the one of the handoff loop for a gossip state, denote the path at the address and the port of
the node if and only if the address is an IPv4 one, and the target id in the path, if there is one,
is carried. -/
theorem nodeUrls_denote_iff (lib : HostLibrary) (m : MemberInfo) (addr : SocketAddr)
    (nm : NodeMeta) (p : InternalPath) {key : String} (hkey : Alphanumeric key) :
    (Denotes lib (p.url (.withHttp (internalBaseUrl m)) key) m.gossipAddr.ip m.forwardPort
        (p.segments key) ↔ isIpv4 m.gossipAddr.ip = true ∧ p.Carried) ∧
      (Denotes lib (p.url (.withHttp (nodeUrl addr nm)) key) addr.ip nm.httpPort
        (p.segments key) ↔ isIpv4 addr.ip = true ∧ p.Carried) :=
  ⟨denotes_iff m.gossipAddr.ip m.forwardPort p hkey, denotes_iff addr.ip nm.httpPort p hkey⟩

/-- A node on the loopback interface, over IPv4 and over IPv6. -/
def loopbackV4 : MemberInfo := .ofClusterMember (.loopback "node-1" 8080)

def loopbackV6 : MemberInfo :=
  { loopbackV4 with gossipAddr := ⟨.v6 (Vector.ofFn fun i => if i = 15 then 1 else 0), 8081⟩ }

/-- Over IPv4 a hint for `node-2` goes to its node. -/
theorem nodeUrls_denote_loopback :
    Denotes .ascii "http://127.0.0.1:8080/internal/hint/node-2/user1" loopbackV4.gossipAddr.ip 8080
      [utf8 "internal", utf8 "hint", utf8 "node-2", utf8 "user1"] := by
  have hplain : Plain (utf8 "node-2") := by decide +kernel
  have hkey : Alphanumeric "user1" := by simp [Alphanumeric, Char.isAlphanum]
  exact ((nodeUrls_denote_iff .ascii loopbackV4 loopbackV4.gossipAddr ⟨Vector.replicate 16 0, 8080⟩
    (.hint "node-2") hkey).1).mpr ⟨rfl, hplain⟩

/-- **Over IPv6 the base URL is `http://::1:8080`**, and a request URL from it is none. -/
theorem loopback_v6_not_a_url : internalBaseUrl loopbackV6 = "http://::1:8080" ∧
    nodeUrl loopbackV6.gossipAddr ⟨Vector.replicate 16 0, 8080⟩ = "http://::1:8080" ∧
    ¬ Denotes .ascii (InternalPath.kv.url (.withHttp (internalBaseUrl loopbackV6)) "user1")
      loopbackV6.gossipAddr.ip loopbackV6.forwardPort (InternalPath.kv.segments "user1") := by
  refine ⟨by decide +kernel, by decide +kernel, ?_⟩
  rintro ⟨u, hu, -⟩
  have hnone : parse .ascii
      (utf8 (InternalPath.kv.url (.withHttp (internalBaseUrl loopbackV6)) "user1")) = none := by
    decide +kernel
  rw [hnone] at hu
  cases hu

end Diynamo.Coordinator.NodeUrl
