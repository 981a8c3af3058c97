import DistStudy.Lib.RecordStream
import DistStudy.MapReduce.Types

/-!
# The intermediate files, as `json.Encoder` writes them

`mapTask` encodes one record after the other into a file, each as a JSON object on a line
of its own. `jsonCodec` writes what `Encode` writes, character by character, and reads the
objects of this form back; for anything else it reports an error.

The reader of a string is the state machine of the JSON scanner: `Scan` says what the next
character belongs to. An escaped surrogate, which the encoder never writes, reads as U+FFFD.
-/

namespace DistStudy.MapReduce

/-! ## Strings -/

/-- `\u` and the code of the character in four digits. -/
def unicodeEscape (c : Char) : Text :=
  ['\\', 'u'] ++ [12, 8, 4, 0].map fun i => Nat.digitChar (c.toNat >>> i % 16)

/-- How a character stands in a JSON string. `<`, `>`, `&` and the two line separators are
escaped for the sake of HTML and JavaScript. -/
def escape (c : Char) : Text :=
  if c = '"' ∨ c = '\\' then ['\\', c]
  else if c = '\n' then ['\\', 'n']
  else if c = '\r' then ['\\', 'r']
  else if c = '\t' then ['\\', 't']
  else if c.toNat < 0x20 ∨ c ∈ ['<', '>', '&', '\u2028', '\u2029'] then unicodeEscape c
  else [c]

/-- What the next character of a string belongs to. -/
inductive Scan where
  | plain
  | escaped
  /-- A `\u` escape, of which `digits + 1` digits are missing. -/
  | unicode (digits code : ℕ)
  deriving DecidableEq, Repr

/-- The character that an escape of one letter stands for. -/
def unescape (c : Char) : Option Char :=
  match c with
  | '"' | '\\' | '/' => some c
  | 'b' => some '\x08'
  | 'f' => some '\x0c'
  | 'n' => some '\n'
  | 'r' => some '\r'
  | 't' => some '\t'
  | _ => none

def hexValue (c : Char) : Option ℕ :=
  if '0' ≤ c ∧ c ≤ '9' then some (c.toNat - '0'.toNat)
  else if 'a' ≤ c ∧ c ≤ 'f' then some (c.toNat - 'a'.toNat + 10)
  else if 'A' ≤ c ∧ c ≤ 'F' then some (c.toNat - 'A'.toNat + 10)
  else none

def charOf (code : ℕ) : Char :=
  if code.isValidChar then Char.ofNat code else '\ufffd'

/-- Put a character before the string that was read. -/
def push (c : Char) (read : Option (Text × Text)) : Option (Text × Text) :=
  read.map fun r => (c :: r.1, r.2)

/-- The string up to its closing quote, and what follows the quote. -/
def readString : Scan → Text → Option (Text × Text)
  | _, [] => none
  | .plain, c :: rest =>
    if c = '"' then some ([], rest)
    else if c = '\\' then readString .escaped rest
    else if c.toNat < 0x20 then none
    else push c (readString .plain rest)
  | .escaped, c :: rest =>
    if c = 'u' then readString (.unicode 3 0) rest
    else (unescape c).bind fun c => push c (readString .plain rest)
  | .unicode digits code, c :: rest =>
    (hexValue c).bind fun d =>
      match digits with
      | 0 => push (charOf (code * 16 + d)) (readString .plain rest)
      | digits + 1 => readString (.unicode digits (code * 16 + d)) rest

/-! ## Records -/

/-- What `Encode` writes for a record. -/
def encodeRecord (kv : KeyValue) : Text :=
  ['{', '"', 'K', 'e', 'y', '"', ':', '"'] ++ kv.key.flatMap escape ++
    ['"', ',', '"', 'V', 'a', 'l', 'u', 'e', '"', ':', '"'] ++ kv.value.flatMap escape ++
    ['"', '}', '\n']

def isSpace (c : Char) : Bool := c = ' ' || c = '\t' || c = '\r' || c = '\n'

/-- A record at the front of a text, and what follows it. -/
def readRecord (s : Text) : Option (KeyValue × Text) := do
  let s ← s.dropPrefix? ['{', '"', 'K', 'e', 'y', '"', ':', '"']
  let (key, s) ← readString .plain s
  let s ← s.dropPrefix? [',', '"', 'V', 'a', 'l', 'u', 'e', '"', ':', '"']
  let (value, s) ← readString .plain s
  let s ← s.dropPrefix? ['}']
  some (⟨key, value⟩, s)

def decodeRecord (s : Text) : Reading KeyValue Char :=
  let s := s.dropWhile isSpace
  if s = [] then .eof
  else
    match readRecord s with
    | some (kv, rest) => .value kv rest
    | none => .error

/-! ## Reading back -/

theorem hexValue_digitChar : ∀ d < 16, hexValue (Nat.digitChar d) = some d := by
  decide

theorem charOf_toNat (c : Char) : charOf c.toNat = c := by
  have hvalid : c.toNat.isValidChar := c.valid
  rw [charOf, if_pos hvalid, Char.ofNat_toNat]

theorem readString_unicodeEscape {c : Char} (h : c.toNat < 65536) (s : Text) :
    readString .plain (unicodeEscape c ++ s) = push c (readString .plain s) := by
  have hdigit : ∀ i, hexValue (Nat.digitChar (c.toNat >>> i % 16)) = some (c.toNat >>> i % 16) :=
    fun i => hexValue_digitChar _ (Nat.mod_lt _ (by decide))
  have hcode : (((0 * 16 + c.toNat >>> 12 % 16) * 16 + c.toNat >>> 8 % 16) * 16 +
      c.toNat >>> 4 % 16) * 16 + c.toNat >>> 0 % 16 = c.toNat := by
    simp only [Nat.shiftRight_eq_div_pow]
    omega
  simp only [unicodeEscape, List.cons_append, List.nil_append, List.map_cons, List.map_nil,
    readString, hdigit, Option.bind_some, hcode, charOf_toNat]
  simp

theorem readString_escape (c : Char) (s : Text) :
    readString .plain (escape c ++ s) = push c (readString .plain s) := by
  unfold escape
  split_ifs with hquote hnewline hreturn htab hcontrol
  · rcases hquote with rfl | rfl <;> rfl
  · rw [hnewline]
    rfl
  · rw [hreturn]
    rfl
  · rw [htab]
    rfl
  · refine readString_unicodeEscape ?_ s
    rcases hcontrol with hlt | hmem
    · omega
    · simp only [List.mem_cons, List.not_mem_nil, or_false] at hmem
      rcases hmem with rfl | rfl | rfl | rfl | rfl <;> decide
  · -- any other character stands for itself
    simp only [not_or] at hquote hcontrol
    simp only [List.singleton_append, readString, hquote.1, hquote.2, hcontrol.1, if_false]

theorem readString_escaped (text rest : Text) :
    readString .plain (text.flatMap escape ++ '"' :: rest) = some (text, rest) := by
  induction text with
  | nil => rfl
  | cons c text ih => rw [List.flatMap_cons, List.append_assoc, readString_escape, ih]; rfl

theorem readRecord_encodeRecord (kv : KeyValue) (s : Text) :
    readRecord (encodeRecord kv ++ s) = some (kv, '\n' :: s) := by
  have hparts : encodeRecord kv ++ s = ['{', '"', 'K', 'e', 'y', '"', ':', '"'] ++
      (kv.key.flatMap escape ++ '"' :: ([',', '"', 'V', 'a', 'l', 'u', 'e', '"', ':', '"'] ++
        (kv.value.flatMap escape ++ '"' :: (['}'] ++ '\n' :: s)))) := by
    simp [encodeRecord]
  have hdrop : ∀ l s : Text, (l ++ s).dropPrefix? l = some s :=
    fun l s => List.dropPrefix?_append_of_beq s (beq_self_eq_true l)
  rw [readRecord, hparts, hdrop]
  simp only [Option.bind_eq_bind, Option.bind_some, readString_escaped, hdrop]

theorem decodeRecord_encodeRecord (kv : KeyValue) (s : Text) :
    decodeRecord (encodeRecord kv ++ s) = .value kv ('\n' :: s) := by
  have hspace : (encodeRecord kv ++ s).dropWhile isSpace = encodeRecord kv ++ s := rfl
  have hne : encodeRecord kv ++ s ≠ [] := by simp [encodeRecord]
  simp only [decodeRecord, hspace, hne, if_false, readRecord_encodeRecord]

/-! ## Reading shortens the text -/

theorem eq_some_of_push {c : Char} {read : Option (Text × Text)} {text rest : Text}
    (h : push c read = some (text, rest)) : ∃ text', read = some (text', rest) := by
  simp only [push, Option.map_eq_some_iff, Prod.mk.injEq] at h
  obtain ⟨⟨text', rest'⟩, hread, -, rfl⟩ := h
  exact ⟨text', hread⟩

theorem readString_length {scan : Scan} {s text rest : Text}
    (h : readString scan s = some (text, rest)) : rest.length < s.length := by
  induction s generalizing scan text with
  | nil => cases scan <;> cases h
  | cons c s ih =>
    -- whatever the state, the rest is that of a shorter text
    have hnext : rest = s ∨ ∃ scan' text', readString scan' s = some (text', rest) := by
      cases scan with
      | plain =>
        simp only [readString] at h
        split_ifs at h
        · simp only [Option.some.injEq, Prod.mk.injEq] at h
          exact Or.inl h.2.symm
        · exact Or.inr ⟨_, _, h⟩
        · exact Or.inr ⟨_, eq_some_of_push h⟩
      | escaped =>
        simp only [readString] at h
        split_ifs at h
        · exact Or.inr ⟨_, _, h⟩
        · obtain ⟨c', -, h⟩ := Option.bind_eq_some_iff.mp h
          exact Or.inr ⟨_, eq_some_of_push h⟩
      | unicode digits code =>
        obtain ⟨d, -, h⟩ := Option.bind_eq_some_iff.mp h
        cases digits with
        | zero => exact Or.inr ⟨_, eq_some_of_push h⟩
        | succ digits => exact Or.inr ⟨_, _, h⟩
    rw [List.length_cons]
    rcases hnext with rfl | ⟨scan', text', hread⟩
    · exact Nat.lt_succ_self _
    · exact Nat.lt_succ_of_lt (ih hread)

theorem dropPrefix?_length {l s rest : Text} (h : s.dropPrefix? l = some rest) :
    rest.length ≤ s.length := by
  obtain ⟨l', rfl, -⟩ := List.dropPrefix?_eq_some_iff.mp h
  simp

theorem readRecord_length {s rest : Text} {kv : KeyValue} (h : readRecord s = some (kv, rest)) :
    rest.length < s.length := by
  simp only [readRecord, Option.bind_eq_bind, Option.bind_eq_some_iff, Option.some.injEq,
    Prod.mk.injEq] at h
  obtain ⟨s₁, h₁, ⟨key, s₂⟩, h₂, s₃, h₃, ⟨value, s₄⟩, h₄, s₅, h₅, -, rfl⟩ := h
  have h₁ := dropPrefix?_length h₁
  have h₂ := readString_length h₂
  have h₃ : s₃.length ≤ s₂.length := dropPrefix?_length h₃
  have h₄ := readString_length h₄
  have h₅ : s₅.length ≤ s₄.length := dropPrefix?_length h₅
  omega

theorem decodeRecord_length {s rest : Text} {kv : KeyValue}
    (h : decodeRecord s = .value kv rest) : rest.length < s.length := by
  have hspace : (s.dropWhile isSpace).length ≤ s.length := (List.dropWhile_sublist _).length_le
  simp only [decodeRecord] at h
  split_ifs at h
  split at h
  · rename_i hread
    cases h
    exact Nat.lt_of_lt_of_le (readRecord_length hread) hspace
  · cases h

/-- The codec of the intermediate files. -/
def jsonCodec : Codec KeyValue Char where
  encode := encodeRecord
  decode := decodeRecord
  decode_nil := rfl
  shortens := decodeRecord_length
  -- the newline after a record is left, and skipped before the next one
  decode_encode kv s := ⟨'\n' :: s, decodeRecord_encodeRecord kv s, rfl⟩

/-- A file that ends within its second record. -/
example : jsonCodec.decodeAll (encodeRecord ⟨['a'], ['1']⟩ ++ (encodeRecord ⟨['b'], ['1']⟩).take 9) =
    ⟨[⟨['a'], ['1']⟩], .error⟩ := by
  decide +kernel

end DistStudy.MapReduce
