import Diynamo.Lib.UrlPath
import Mathlib.Algebra.Group.Nat.Defs

/-! # Parsing `http` URLs

The URL standard's parser on an `http` URL without a base URL: the string is trimmed, tabs and
newlines are removed, the slashes after the scheme are skipped, the authority ends at `/`, `\`, `?`
or `#`, the credentials at its last `@`, and the host at the first `:` that is not inside brackets.
The path is that of `Lib.UrlPath`.

A host without brackets is percent-decoded and brought to ASCII. If its last label is a number, it
is an IPv4 address, and no URL otherwise. What an address in brackets and a domain outside ASCII
mean is left to a library (`HostLibrary`). `HttpUrl.serialize` writes a URL out again.

* `parse_http`: a URL of an authority and a path is parsed as the two;
* `serialize_dotted`: an IPv4 address is written as four decimal numbers;
* `parseAuthority_append`, `parseAuthority_eq_none`: an authority with one colon, and with several
  ones and no brackets. -/

namespace Diynamo.Lib.Url

open Diynamo.Lib.Utf8 Diynamo.Lib.Percent Diynamo.Lib.UrlPath

def atSign : UInt8 := 0x40

def colon : UInt8 := 0x3A

def dot : UInt8 := 0x2E

def leftBracket : UInt8 := 0x5B

def rightBracket : UInt8 := 0x5D

/-- What addresses in brackets and domains outside ASCII need of the host parser and serializer. -/
structure HostLibrary where
  parseIpv6 : Bytes → Option (Vector UInt8 16)
  serializeIpv6 : Vector UInt8 16 → Bytes
  domainToAscii : Bytes → Option Bytes

/-- A library without addresses in brackets and domains outside ASCII. -/
def HostLibrary.ascii : HostLibrary := ⟨fun _ => none, fun _ => [], fun _ => none⟩

/-- A host; an IPv4 address is a 32-bit number. -/
inductive Host where
  | ipv4 (address : ℕ)
  | ipv6 (octets : Vector UInt8 16)
  | domain (name : Bytes)
deriving DecidableEq

/-- A URL without credentials; the port is absent if it is the default one, and the suffix is the
query and the fragment, serialized. -/
structure HttpUrl where
  host : Host
  port : Option ℕ
  path : List Bytes
  suffix : Bytes
deriving DecidableEq

/-- The port to connect to. -/
def HttpUrl.portOrDefault (u : HttpUrl) : ℕ := u.port.getD 80

/-! ### Hosts -/

/-- The value of digits of the given radix, from the left. -/
def digitsFrom (radix acc : ℕ) : Bytes → Option ℕ
  | [] => some acc
  | b :: s =>
    match hexValue b with
    | none => none
    | some v => if v < radix then digitsFrom radix (radix * acc + v) s else none

/-- A number of an IPv4 address: hexadecimal after `0x`, octal after `0`, else decimal. -/
def ipv4Number : Bytes → Option ℕ
  | [] => none
  | [b] => digitsFrom 10 0 [b]
  | b :: c :: s =>
    if b = 0x30 ∧ (c = 0x78 ∨ c = 0x58) then digitsFrom 16 0 s
    else if b = 0x30 then digitsFrom 8 0 (c :: s)
    else digitsFrom 10 0 (b :: c :: s)

/-- The labels of a host; a last one that is empty does not count. -/
def labels (s : Bytes) : List Bytes :=
  let parts := s.splitOnP (· = dot)
  if parts.getLast? = some [] ∧ 1 < parts.length then parts.dropLast else parts

def isDigit (b : UInt8) : Bool := 0x30 ≤ b && b ≤ 0x39

/-- The host ends in a number. -/
def endsInNumber (s : Bytes) : Bool :=
  match (labels s).getLast? with
  | none => false
  | some last => (last ≠ [] && last.all isDigit) || (ipv4Number last).isSome

/-- The number with these bytes, from the highest one. -/
def ipv4Value (numbers : List ℕ) : ℕ := numbers.foldl (fun acc n => 256 * acc + n) 0

/-- The address of the numbers of its labels; the last one fills all the bytes that are left. -/
def ipv4Address (numbers : List ℕ) : Option ℕ :=
  match numbers.getLast? with
  | none => none
  | some last =>
    if numbers.length ≤ 4 ∧ (∀ n ∈ numbers.dropLast, n ≤ 255) ∧ last < 256 ^ (5 - numbers.length)
    then some (256 ^ (5 - numbers.length) * ipv4Value numbers.dropLast + last)
    else none

def parseIpv4 (s : Bytes) : Option ℕ := ((labels s).mapM ipv4Number).bind ipv4Address

/-- No host has one of these. -/
def isForbidden (b : UInt8) : Bool :=
  b ≤ 0x20 || 0x7F ≤ b ||
    [0x23, 0x25, 0x2F, 0x3A, 0x3C, 0x3E, 0x3F, 0x40, 0x5B, 0x5C, 0x5D, 0x5E, 0x7C].contains b

variable (lib : HostLibrary)

/-- A domain in ASCII; without a label that starts with `xn--`, that is lower case. -/
def toAscii (s : Bytes) : Option Bytes :=
  if s ≠ [] ∧ s.all (· < 0x80) ∧
      ∀ label ∈ s.splitOnP (· = dot), ¬ utf8 "xn--" <+: label.map toLower
  then some (s.map toLower)
  else lib.domainToAscii s

/-- **The host parser.** -/
def parseHost (s : Bytes) : Option Host :=
  if s.head? = some leftBracket then
    if s.getLast? = some rightBracket then (lib.parseIpv6 s.tail.dropLast).map .ipv6 else none
  else
    match toAscii lib (percentDecode s) with
    | none => none
    | some name =>
      if name.any isForbidden then none
      else if endsInNumber name then (parseIpv4 name).map .ipv4
      else some (.domain name)

/-- Four numbers with dots between them. -/
def dotted (a b c d : ℕ) : Bytes :=
  utf8 a.repr ++ dot :: (utf8 b.repr ++ dot :: (utf8 c.repr ++ dot :: utf8 d.repr))

/-- The host serializer. -/
def Host.serialize : Host → Bytes
  | .ipv4 n => dotted (n / 256 ^ 3) (n / 256 ^ 2 % 256) (n / 256 % 256) (n % 256)
  | .ipv6 octets => leftBracket :: (lib.serializeIpv6 octets ++ [rightBracket])
  | .domain name => name

/-! ### URLs -/

/-- The port with its colon, if it is not the default one. -/
def serializePort : Option ℕ → Bytes
  | none => []
  | some port => colon :: utf8 port.repr

/-- **The URL serializer.** -/
def HttpUrl.serialize (u : HttpUrl) : Bytes :=
  utf8 "http://" ++ u.host.serialize lib ++ serializePort u.port ++ (joinPath u.path ++ u.suffix)

/-- What comes before the first colon outside brackets, and after it. -/
def splitPort (inBrackets : Bool) : Bytes → Bytes × Option Bytes
  | [] => ([], none)
  | b :: s =>
    if b = colon ∧ inBrackets = false then ([], some s)
    else
      let rest := splitPort
        (if b = leftBracket then true else if b = rightBracket then false else inBrackets) s
      (b :: rest.1, rest.2)

/-- A port, or nothing for none and for the default one. -/
def parsePort (s : Bytes) : Option (Option ℕ) :=
  match digitsFrom 10 0 s with
  | none => none
  | some n =>
    if s = [] ∨ n = 80 then some none
    else if n ≤ 65535 then some (some n)
    else none

/-- The host and the port of an authority. -/
def parseAuthority (authority : Bytes) : Option (Host × Option ℕ) :=
  let (host, port) := splitPort false (authority.rtakeWhile (· ≠ atSign))
  if host = [] then none
  else
    match parseHost lib host with
    | none => none
    | some h =>
      match port with
      | none => some (h, none)
      | some p => (parsePort p).map fun port => (h, port)

/-- Spaces and controls around the string are trimmed, tabs and newlines removed. -/
def clean (s : Bytes) : Bytes :=
  ((s.dropWhile isC0OrSpace).rdropWhile isC0OrSpace).filter fun b => !isTabOrNewline b

/-- The authority ends here. -/
def endsAuthority (b : UInt8) : Bool := isSeparator b || endsPath b

/-- The segments of what follows the authority, in a string without anything to trim or remove. -/
def segmentsOf (rest : Bytes) : List Bytes :=
  (resolve [] ((rest.takeWhile fun b => !endsPath b).tail.splitOnP isSeparator)).map percentEncode

/-- **The URL parser**, for the scheme `http`. -/
def parse (input : Bytes) : Option HttpUrl :=
  let s := clean input
  if (s.take 5).map toLower = utf8 "http:" then
    let s := (s.drop 5).dropWhile isSeparator
    let rest := s.dropWhile fun b => !endsAuthority b
    (parseAuthority lib (s.takeWhile fun b => !endsAuthority b)).map fun a =>
      ⟨a.1, a.2, segmentsOf rest, serializeSuffix (rest.dropWhile fun b => !endsPath b)⟩
  else none

variable {lib}

/-! ### Decimal numbers -/

theorem utf8_repr_of_lt : ∀ n < 10, utf8 n.repr = [UInt8.ofNat (0x30 + n)] := by decide

theorem utf8_repr_of_ge {n : ℕ} (h : 10 ≤ n) :
    utf8 n.repr = utf8 (n / 10).repr ++ [UInt8.ofNat (0x30 + n % 10)] := by
  rw [Nat.repr_eq_repr_append_repr h, utf8_append, utf8_repr_of_lt (n % 10) (by omega)]

theorem digitsFrom_append (radix : ℕ) : ∀ (s t : Bytes) (acc : ℕ),
    digitsFrom radix acc (s ++ t) = (digitsFrom radix acc s).bind fun n => digitsFrom radix n t
  | [], _, _ => rfl
  | b :: s, t, acc => by
    rw [List.cons_append, digitsFrom, digitsFrom]
    cases hexValue b with
    | none => rfl
    | some v =>
      dsimp only
      split_ifs
      · exact digitsFrom_append radix s t _
      · rfl

theorem digitsFrom_digit : ∀ d < 10, ∀ acc,
    digitsFrom 10 acc [UInt8.ofNat (0x30 + d)] = some (10 * acc + d) := by
  intro d hd acc
  have hv : ∀ d < 10, hexValue (UInt8.ofNat (0x30 + d)) = some d := by decide
  simp only [digitsFrom, hv d hd, if_pos hd]

/-- **A decimal number is read back.** -/
theorem digitsFrom_repr (n : ℕ) : digitsFrom 10 0 (utf8 n.repr) = some n := by
  induction n using Nat.strongRecOn with
  | ind n ih =>
    rcases Nat.lt_or_ge n 10 with h | h
    · rw [utf8_repr_of_lt n h, digitsFrom_digit n h, Nat.mul_zero, Nat.zero_add]
    · rw [utf8_repr_of_ge h, digitsFrom_append, ih (n / 10) (by omega), Option.bind_some,
        digitsFrom_digit _ (by omega), Nat.div_add_mod]

/-- The digits in ASCII. -/
def digits : Bytes := (List.range 10).map fun d => UInt8.ofNat (0x30 + d)

/-- What holds of every digit holds of the characters of a number. -/
theorem forall_mem_toDigits {base : ℕ} (hb : 1 < base) {p : Char → Prop}
    (hp : ∀ d < base, p (Nat.digitChar d)) (n : ℕ) : ∀ c ∈ Nat.toDigits base n, p c := by
  induction n using Nat.strongRecOn with
  | ind n ih =>
    intro c hc
    rcases Nat.lt_or_ge n base with h | h
    · rw [Nat.toDigits_of_lt_base h, List.mem_singleton] at hc
      rw [hc]
      exact hp n h
    · rw [Nat.toDigits_of_base_le hb h] at hc
      rcases List.mem_append.mp hc with hc | hc
      · exact ih (n / base) (Nat.div_lt_self (by omega) hb) c hc
      · rw [List.mem_singleton.mp hc]
        exact hp _ (Nat.mod_lt _ (by omega))

theorem mem_digits_of_mem_repr {n : ℕ} : ∀ b ∈ utf8 n.repr, b ∈ digits := by
  have hd : ∀ d < 10, String.utf8EncodeChar (Nat.digitChar d) ⊆ digits := by decide
  intro b hb
  rw [utf8_eq_flatMap, Nat.toList_repr] at hb
  obtain ⟨c, hc, hb⟩ := List.mem_flatMap.mp hb
  have hc' : String.utf8EncodeChar c ⊆ digits :=
    forall_mem_toDigits (p := fun c => String.utf8EncodeChar c ⊆ digits) (by decide) hd n c hc
  exact hc' hb

theorem utf8_repr_ne_nil (n : ℕ) : utf8 n.repr ≠ [] := by
  rcases Nat.lt_or_ge n 10 with h | h
  · simp [utf8_repr_of_lt n h]
  · simp [utf8_repr_of_ge h]

/-- Only zero starts with a zero. -/
theorem head?_repr {n : ℕ} (hn : n ≠ 0) : (utf8 n.repr).head? ≠ some 0x30 := by
  have hd : ∀ d < 10, d ≠ 0 → UInt8.ofNat (0x30 + d) ≠ 0x30 := by decide
  induction n using Nat.strongRecOn with
  | ind n ih =>
    rcases Nat.lt_or_ge n 10 with h | h
    · rw [utf8_repr_of_lt n h]
      exact fun he => hd n h hn (Option.some.inj he)
    · rw [utf8_repr_of_ge h, List.head?_append_of_ne_nil _ (utf8_repr_ne_nil _)]
      exact ih (n / 10) (by omega) (by omega)

/-- A decimal number is no octal or hexadecimal one. -/
theorem ipv4Number_repr (n : ℕ) : ipv4Number (utf8 n.repr) = some n := by
  rcases Nat.eq_zero_or_pos n with rfl | hn
  · decide
  · have hhead := head?_repr hn.ne'
    have hnum := digitsFrom_repr n
    match hs : utf8 n.repr with
    | [] => exact absurd hs (utf8_repr_ne_nil n)
    | [b] => rw [hs] at hnum; exact hnum
    | b :: c :: s =>
      rw [hs] at hhead hnum
      have hb : b ≠ 0x30 := fun he => hhead (by rw [he]; rfl)
      rw [ipv4Number, if_neg fun h => hb h.1, if_neg hb, hnum]

theorem parsePort_repr {n : ℕ} (hn : n ≤ 65535) :
    parsePort (utf8 n.repr) = some (if n = 80 then none else some n) := by
  rw [parsePort, digitsFrom_repr]
  dsimp only
  simp only [utf8_repr_ne_nil, false_or, if_pos hn]
  split_ifs <;> rfl

/-- A port is made of digits. -/
theorem digitsFrom_eq_none {radix : ℕ} {b : UInt8} (hb : hexValue b = none) :
    ∀ {s : Bytes} {acc : ℕ}, b ∈ s → digitsFrom radix acc s = none
  | c :: s, acc, h => by
    rw [digitsFrom]
    rcases List.mem_cons.mp h with rfl | h
    · rw [hb]
    · cases hexValue c with
      | none => rfl
      | some v =>
        dsimp only
        rw [digitsFrom_eq_none hb h]
        split_ifs <;> rfl

/-! ### Dotted addresses -/

variable {a b c d : ℕ}

theorem mem_dotted {x : UInt8} (hx : x ∈ dotted a b c d) : x ∈ dot :: digits := by
  have hnum : ∀ n : ℕ, utf8 n.repr ⊆ dot :: digits := fun n x hx =>
    List.mem_cons_of_mem dot (mem_digits_of_mem_repr x hx)
  have happend : ∀ {s t : Bytes}, s ⊆ dot :: digits → t ⊆ dot :: digits →
      s ++ dot :: t ⊆ dot :: digits := fun hs ht =>
    List.append_subset.mpr ⟨hs, List.cons_subset.mpr ⟨List.mem_cons_self, ht⟩⟩
  exact happend (hnum a) (happend (hnum b) (happend (hnum c) (hnum d))) hx

theorem splitOnP_dotted : (dotted a b c d).splitOnP (· = dot) =
    [utf8 a.repr, utf8 b.repr, utf8 c.repr, utf8 d.repr] := by
  have hdot : ∀ x ∈ digits, decide (x = dot) = false := by decide +kernel
  have h : ∀ n : ℕ, ∀ x ∈ utf8 n.repr, decide (x = dot) = false := fun n x hx =>
    hdot x (mem_digits_of_mem_repr x hx)
  rw [dotted, List.splitOnP_append_cons_of_forall_mem (h a) dot (by decide),
    List.splitOnP_append_cons_of_forall_mem (h b) dot (by decide),
    List.splitOnP_append_cons_of_forall_mem (h c) dot (by decide), List.splitOnP_eq_singleton (h d)]

theorem labels_dotted : labels (dotted a b c d) =
    [utf8 a.repr, utf8 b.repr, utf8 c.repr, utf8 d.repr] := by
  rw [labels, splitOnP_dotted]
  exact if_neg fun h => utf8_repr_ne_nil d (Option.some.inj h.1)

theorem toAscii_dotted : toAscii lib (dotted a b c d) = some (dotted a b c d) := by
  have hascii : ∀ x ∈ dot :: digits, decide (x < 0x80) = true := by decide +kernel
  have hlower : ∀ x ∈ dot :: digits, toLower x = x := by decide +kernel
  have hx : ∀ x ∈ digits, toLower x ≠ 0x78 := by decide +kernel
  rw [toAscii, if_pos]
  · rw [List.map_congr_left fun x h => hlower x (mem_dotted h), List.map_id']
  · refine ⟨by simp [dotted], List.all_eq_true.mpr fun x h => hascii x (mem_dotted h),
      fun label hl hpre => ?_⟩
    -- a label starts with a digit, not with an `x`
    rw [splitOnP_dotted] at hl
    obtain ⟨n, rfl⟩ : ∃ n : ℕ, label = utf8 n.repr := by
      simp only [List.mem_cons, List.not_mem_nil, or_false] at hl
      rcases hl with rfl | rfl | rfl | rfl <;> exact ⟨_, rfl⟩
    obtain ⟨x, s, hs⟩ := List.exists_cons_of_ne_nil (utf8_repr_ne_nil n)
    rw [hs, List.map_cons, show utf8 "xn--" = [0x78, 0x6E, 0x2D, 0x2D] by decide,
      List.cons_prefix_cons] at hpre
    exact hx x (mem_digits_of_mem_repr x (by rw [hs]; exact List.mem_cons_self)) hpre.1.symm

theorem ipv4Address_four (ha : a ≤ 255) (hb : b ≤ 255) (hc : c ≤ 255) (hd : d ≤ 255) :
    ipv4Address [a, b, c, d] = some (ipv4Value [a, b, c, d]) := by
  have hlast : d < 256 ^ (5 - 4) := Nat.lt_succ_of_le hd
  have hrest : ∀ n ∈ [a, b, c], n ≤ 255 := by simp [ha, hb, hc]
  exact if_pos ⟨le_rfl, hrest, hlast⟩

theorem parseIpv4_dotted (ha : a ≤ 255) (hb : b ≤ 255) (hc : c ≤ 255) (hd : d ≤ 255) :
    parseIpv4 (dotted a b c d) = some (ipv4Value [a, b, c, d]) := by
  have hnumbers : [utf8 a.repr, utf8 b.repr, utf8 c.repr, utf8 d.repr].mapM ipv4Number =
      some [a, b, c, d] := by
    simp only [List.mapM_cons, ipv4Number_repr, List.mapM_nil, Option.pure_def,
      Option.bind_eq_bind, Option.bind_some]
  rw [parseIpv4, labels_dotted, hnumbers, Option.bind_some, ipv4Address_four ha hb hc hd]

theorem endsInNumber_dotted : endsInNumber (dotted a b c d) = true := by
  simp only [endsInNumber, labels_dotted, List.getLast?_cons_cons, List.getLast?_singleton,
    ipv4Number_repr, Option.isSome_some, Bool.or_true]

/-- **Four numbers up to 255 with dots between them** are an IPv4 address. -/
theorem parseHost_dotted (ha : a ≤ 255) (hb : b ≤ 255) (hc : c ≤ 255) (hd : d ≤ 255) :
    parseHost lib (dotted a b c d) = some (.ipv4 (ipv4Value [a, b, c, d])) := by
  have hforbidden : ∀ x ∈ dot :: digits, isForbidden x = false := by decide +kernel
  have hbracket : leftBracket ∉ dot :: digits := by decide
  have hpercent : percent ∉ dot :: digits := by decide
  have hhead : (dotted a b c d).head? ≠ some leftBracket := fun h =>
    hbracket (mem_dotted (List.mem_of_head? h))
  have hname : (dotted a b c d).any isForbidden = false :=
    List.any_eq_false.mpr fun x hx => by simp [hforbidden x (mem_dotted hx)]
  rw [parseHost, if_neg hhead, percentDecode_eq_self (hasEscape_of_not_mem fun h =>
    hpercent (mem_dotted h)), toAscii_dotted]
  dsimp only
  rw [hname, if_neg Bool.false_ne_true, if_pos endsInNumber_dotted,
    parseIpv4_dotted ha hb hc hd, Option.map_some]

/-- **A dotted address is serialized** as it was. -/
theorem serialize_dotted (lib : HostLibrary) (hb : b ≤ 255) (hc : c ≤ 255) (hd : d ≤ 255) :
    (Host.ipv4 (ipv4Value [a, b, c, d])).serialize lib = dotted a b c d := by
  have hval : ipv4Value [a, b, c, d] = 256 * (256 * (256 * a + b) + c) + d := by
    simp only [ipv4Value, List.foldl_cons, List.foldl_nil, Nat.mul_zero, Nat.zero_add]
  rw [Host.serialize, hval]
  congr <;> omega

/-! ### Authorities -/

/-- The first colon splits the port off. -/
theorem splitPort_append {port : Bytes} : ∀ {host : Bytes}, colon ∉ host → leftBracket ∉ host →
    splitPort false (host ++ colon :: port) = (host, some port)
  | [], _, _ => rfl
  | b :: host, hc, hb => by
    rw [List.mem_cons, not_or] at hc hb
    have hright : (if b = leftBracket then true else if b = rightBracket then false else false) =
        false := by
      rw [if_neg (Ne.symm hb.1)]
      split_ifs <;> rfl
    rw [List.cons_append, splitPort, if_neg fun h => hc.1 h.1.symm, hright,
      splitPort_append hc.2 hb.2]

/-- **An authority without credentials and brackets** is split at its first colon. -/
theorem parseAuthority_append {host port : Bytes} (hat : atSign ∉ host ++ colon :: port)
    (hc : colon ∉ host) (hb : leftBracket ∉ host) :
    parseAuthority lib (host ++ colon :: port) =
      if host = [] then none
      else (parseHost lib host).bind fun h => (parsePort port).map fun p => (h, p) := by
  have hself : (host ++ colon :: port).rtakeWhile (· ≠ atSign) = host ++ colon :: port :=
    List.rtakeWhile_eq_self_iff.mpr fun x hx => by
      simpa using fun h : x = atSign => hat (h ▸ hx)
  rw [parseAuthority, hself, splitPort_append hc hb]
  dsimp only
  split_ifs
  · rfl
  · cases parseHost lib host <;> rfl

/-- **A second colon** is no digit of a port. -/
theorem parseAuthority_eq_none {host port : Bytes} (hat : atSign ∉ host ++ colon :: port)
    (hc : colon ∉ host) (hb : leftBracket ∉ host) (hp : colon ∈ port) :
    parseAuthority lib (host ++ colon :: port) = none := by
  have hport : parsePort port = none := by
    rw [parsePort, digitsFrom_eq_none (b := colon) (by decide) hp]
  rw [parseAuthority_append hat hc hb, hport]
  split_ifs
  · rfl
  · cases parseHost lib host <;> rfl

/-! ### The parser -/

theorem rdropWhile_append_cons {p : UInt8 → Bool} {b : UInt8} (hb : p b = false) (s : Bytes) :
    ∀ t : Bytes, (s ++ b :: t).rdropWhile p = s ++ b :: t.rdropWhile p := by
  intro t
  induction t using List.reverseRecOn with
  | nil => exact List.rdropWhile_concat_neg p s b (by simp [hb])
  | append_singleton t c ih =>
    rw [← List.cons_append, ← List.append_assoc, List.rdropWhile_concat, List.rdropWhile_concat]
    split_ifs
    · exact ih
    · rw [List.append_assoc, List.cons_append]

/-- A byte of an authority: nothing to trim or remove, and no end. -/
def inAuthority (b : UInt8) : Bool :=
  !isC0OrSpace b && !isTabOrNewline b && !endsAuthority b

theorem cleanEnd_append_cons {b : UInt8} (hc : isC0OrSpace b = false)
    (hb : isTabOrNewline b = false) (s t : Bytes) :
    cleanEnd (s ++ b :: t) = (s.filter fun b => !isTabOrNewline b) ++ b :: cleanEnd t := by
  rw [cleanEnd, rdropWhile_append_cons hc, List.filter_append,
    List.filter_cons_of_pos (by simp [hb])]
  rfl

theorem clean_http {authority : Bytes} (ha : ∀ b ∈ authority, isTabOrNewline b = false)
    (rest : Bytes) : clean (utf8 "http://" ++ (authority ++ slash :: rest)) =
      utf8 "http://" ++ (authority ++ slash :: cleanEnd rest) := by
  have hscheme : utf8 "http://" = [0x68, 0x74, 0x74, 0x70, 0x3A, 0x2F, 0x2F] := by decide
  have hfilter : ((utf8 "http://").filter fun b => !isTabOrNewline b) = utf8 "http://" := by
    decide +kernel
  have hdrop : (utf8 "http://" ++ (authority ++ slash :: rest)).dropWhile isC0OrSpace =
      utf8 "http://" ++ (authority ++ slash :: rest) := by
    rw [hscheme]
    rfl
  rw [clean, hdrop, ← cleanEnd, ← List.append_assoc, cleanEnd_append_cons (by decide) (by decide),
    List.filter_append, hfilter, List.filter_eq_self.mpr fun b hb => by simp [ha b hb],
    List.append_assoc]

theorem cleanEnd_slash (rest : Bytes) : cleanEnd (slash :: rest) = slash :: cleanEnd rest :=
  cleanEnd_append_cons (by decide) (by decide) [] rest

theorem pathSegments_slash (rest : Bytes) :
    pathSegments (slash :: rest) = segmentsOf (slash :: cleanEnd rest) := by
  rw [← cleanEnd_slash]
  rfl

theorem suffixOf_slash (rest : Bytes) : suffixOf (slash :: rest) =
    serializeSuffix ((slash :: cleanEnd rest).dropWhile fun b => !endsPath b) := by
  rw [← cleanEnd_slash]
  rfl

/-- **A URL of an authority and a path** is parsed as the two. -/
theorem parse_http {authority path : Bytes} (hne : authority ≠ [])
    (ha : ∀ b ∈ authority, inAuthority b = true) (hp : path.head? = some slash) :
    parse lib (utf8 "http://" ++ (authority ++ path)) =
      (parseAuthority lib authority).map fun a =>
        ⟨a.1, a.2, pathSegments path, suffixOf path⟩ := by
  obtain ⟨rest, rfl⟩ := List.head?_eq_some_iff.mp hp
  have hbyte : ∀ b ∈ authority, isTabOrNewline b = false ∧ endsAuthority b = false := by
    intro b hb
    have h := ha b hb
    simp only [inAuthority, Bool.and_eq_true, Bool.not_eq_true'] at h
    exact ⟨h.1.2, h.2⟩
  have hend : ∀ b ∈ authority, (!endsAuthority b) = true := fun b hb => by simp [(hbyte b hb).2]
  have hslash : endsAuthority slash = true := by decide
  have hsep : (utf8 "//" ++ (authority ++ slash :: cleanEnd rest)).dropWhile isSeparator =
      authority ++ slash :: cleanEnd rest := by
    obtain ⟨b, l, rfl⟩ := List.exists_cons_of_ne_nil hne
    have hb := (hbyte b List.mem_cons_self).2
    have hslashes : ∀ x ∈ utf8 "//", isSeparator x = true := by decide +kernel
    rw [endsAuthority, Bool.or_eq_false_iff] at hb
    rw [List.dropWhile_append_of_pos hslashes, List.cons_append,
      List.dropWhile_cons_of_neg (by simp [hb.1])]
  rw [parse, clean_http fun b hb => (hbyte b hb).1]
  dsimp only
  rw [show utf8 "http://" = utf8 "http:" ++ utf8 "//" by decide, List.append_assoc,
    List.take_left' (by decide), List.drop_left' (by decide), if_pos (by decide), hsep,
    List.takeWhile_append_of_pos hend, List.takeWhile_cons_of_neg (by simp [hslash]),
    List.dropWhile_append_of_pos hend, List.dropWhile_cons_of_neg (by simp [hslash]),
    List.append_nil, pathSegments_slash, suffixOf_slash]

end Diynamo.Lib.Url
