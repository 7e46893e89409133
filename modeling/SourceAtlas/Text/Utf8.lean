/-!
# UTF-8

Texts travel as octets. Reading is strict where a text has to be right
(`decode?`) and lossy where a text is only shown (`decodeLossy`): there each
longest start of a sequence that can no longer become one turns into a single
replacement character, and so does every octet that starts none.
-/

namespace SourceAtlas

namespace Utf8

def encode (text : String) : List UInt8 :=
  text.toUTF8.toList

def decode? (bytes : List UInt8) : Option String :=
  String.fromUTF8? (ByteArray.mk bytes.toArray)

theorem toList_loop (bytes : ByteArray) (i : Nat) (before : List UInt8) :
    ByteArray.toList.loop bytes i before = before.reverse ++ bytes.data.toList.drop i := by
  fun_induction ByteArray.toList.loop bytes i before with
  | case1 i before h ih =>
      have hi : i < bytes.data.toList.length := by simpa using h
      rw [ih, List.drop_eq_getElem_cons hi]
      simp [ByteArray.get!, h]
  | case2 i before h =>
      have hi : bytes.data.toList.length ≤ i := by simpa using h
      rw [List.drop_eq_nil_of_le hi, List.append_nil]

theorem encode_eq (text : String) : encode text = text.toByteArray.data.toList := by
  rw [encode, ByteArray.toList, toList_loop]
  rfl

/-- What is encoded is read again. -/
@[simp] theorem decode?_encode (text : String) : decode? (encode text) = some text := by
  have hbytes : ByteArray.mk (encode text).toArray = text.toByteArray := by
    rw [encode_eq, Array.toArray_toList]
  rw [decode?, hbytes, String.fromUTF8?, dif_pos text.isValidUTF8]
  rfl

/-- Only what is the encoding of a text is read. -/
theorem decode?_eq_some_iff {bytes : List UInt8} {text : String} :
    decode? bytes = some text ↔ bytes = encode text := by
  constructor
  · intro h
    rw [decode?, String.fromUTF8?] at h
    split at h
    · rw [← Option.some.inj h, encode_eq]
      rfl
    · cases h
  · rintro rfl
    exact decode?_encode text

theorem encode_eq_nil_iff {text : String} : encode text = [] ↔ text = "" := by
  have hempty : encode "" = [] := by simp [encode_eq]
  constructor
  · intro h
    have hread := decode?_encode text
    rw [h, ← hempty, decode?_encode] at hread
    exact (Option.some.inj hread).symm
  · rintro rfl
    exact hempty

theorem encode_ofList_cons (c : Char) (cs : List Char) :
    encode (String.ofList (c :: cs)) = String.utf8EncodeChar c ++ encode (String.ofList cs) := by
  simp [encode_eq, List.utf8Encode]

/-- The octets of characters of ASCII, one for each. -/
def ascii (cs : List Char) : List UInt8 :=
  cs.map fun c => UInt8.ofNat c.toNat

theorem encode_ofList_of_ascii {cs : List Char} (h : ∀ c ∈ cs, c.toNat < 0x80) :
    encode (String.ofList cs) = ascii cs := by
  induction cs with
  | nil => simp [encode_eq, ascii]
  | cons c cs ih =>
      have hc : c.utf8Size = 1 := by
        have hlt : c.val.toNat < 0x80 := h c List.mem_cons_self
        rw [Char.utf8Size_eq_one_iff, UInt32.le_iff_toNat_le]
        exact Nat.le_of_lt_succ hlt
      rw [encode_ofList_cons, String.utf8EncodeChar_eq_singleton hc,
        ih fun d hd => h d (List.mem_cons_of_mem c hd)]
      rfl

theorem decode?_ascii {cs : List Char} (h : ∀ c ∈ cs, c.toNat < 0x80) :
    decode? (ascii cs) = some (String.ofList cs) := by
  rw [← encode_ofList_of_ascii h, decode?_encode]

/-- What the first octet of a sequence asks for: the bits it contributes, and
for each octet that has to follow the least and the greatest one allowed. -/
def lead? (b : UInt8) : Option (Nat × List (UInt8 × UInt8)) :=
  let n := b.toNat
  let tail : UInt8 × UInt8 := (0x80, 0xBF)
  if n < 0x80 then some (n, [])
  else if 0xC2 ≤ n ∧ n ≤ 0xDF then some (n - 0xC0, [tail])
  else if n = 0xE0 then some (0, [(0xA0, 0xBF), tail])
  else if n = 0xED then some (0x0D, [(0x80, 0x9F), tail])
  else if 0xE1 ≤ n ∧ n ≤ 0xEF then some (n - 0xE0, [tail, tail])
  else if n = 0xF0 then some (0, [(0x90, 0xBF), tail, tail])
  else if n = 0xF4 then some (4, [(0x80, 0x8F), tail, tail])
  else if 0xF1 ≤ n ∧ n ≤ 0xF3 then some (n - 0xF0, [tail, tail, tail])
  else none

/-- Reads the octets that have to follow as far as they fit: the scalar value
they complete, if they all do, and the octets that are left. -/
def follow : Nat → List (UInt8 × UInt8) → List UInt8 → Option Nat × List UInt8
  | acc, [], bytes => (some acc, bytes)
  | _, _ :: _, [] => (none, [])
  | acc, (lo, hi) :: more, b :: bytes =>
      if lo ≤ b && b ≤ hi then follow (acc * 64 + (b.toNat - 0x80)) more bytes
      else (none, b :: bytes)

theorem length_follow_le (acc : Nat) (more : List (UInt8 × UInt8)) (bytes : List UInt8) :
    (follow acc more bytes).2.length ≤ bytes.length := by
  induction more generalizing acc bytes with
  | nil => simp [follow]
  | cons r more ih =>
      cases bytes with
      | nil => simp [follow]
      | cons b bytes =>
          obtain ⟨lo, hi⟩ := r
          simp only [follow]
          split
          · exact Nat.le_trans (ih _ _) (Nat.le_succ _)
          · exact Nat.le_refl _

def replacement : Char := '\uFFFD'

/-- The characters of a list of octets, with a replacement character for each
part that is no text. -/
def decodeLossyChars : List UInt8 → List Char
  | [] => []
  | b :: bytes =>
      match lead? b with
      | none => replacement :: decodeLossyChars bytes
      | some (bits, more) =>
          have : (follow bits more bytes).2.length ≤ bytes.length := length_follow_le bits more bytes
          let c := match (follow bits more bytes).1 with
            | some n => Char.ofNat n
            | none => replacement
          c :: decodeLossyChars (follow bits more bytes).2
termination_by bytes => bytes.length
decreasing_by
  · simp
  · simp only [List.length_cons]; omega

/-- The text of a list of octets, with a replacement character for each part
that is no text. -/
def decodeLossy (bytes : List UInt8) : String :=
  String.ofList (decodeLossyChars bytes)

end Utf8

end SourceAtlas
