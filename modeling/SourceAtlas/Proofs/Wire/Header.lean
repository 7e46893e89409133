import Mathlib.Data.List.DropRight
import SourceAtlas.Proofs.Wire.Frame
/-!
# Lines of a header block

A stream is read line by line, and its last line may lack a line feed (`IsLine`,
`takeLine?_eq_some_iff`). A line is blank, or a text with a colon in it: a header, which gives
the length of the body if its name says so. What a line says is told here without the reader
(`Tells`), and `readLine_eq_ok_iff` shows that the reader finds out just that.
-/

namespace SourceAtlas

namespace Frame

variable {bs line rest : List UInt8} {cs name value : List Char} {n : Nat} {l : Line}

/-! ## Lines of a stream -/

/-- A line of a stream, with what follows it: it ends after its line feed, or at the end of the
stream if it has at least one octet. -/
def IsLine (line rest : List UInt8) : Prop :=
  (∃ cs, 0x0A ∉ cs ∧ line = cs ++ [0x0A]) ∨ (0x0A ∉ line ∧ line ≠ [] ∧ rest = [])

theorem IsLine.ne_nil (h : IsLine line rest) : line ≠ [] := by
  rcases h with ⟨cs, -, rfl⟩ | ⟨-, hne, -⟩
  · simp
  · exact hne

/-- A stream has a first line unless it is at its end. -/
theorem takeLine?_cases (bs : List UInt8) :
    (bs = [] ∧ takeLine? true bs = none) ∨
      ∃ line rest, bs = line ++ rest ∧ IsLine line rest ∧ takeLine? true bs = some (line, rest) := by
  by_cases hfeed : 0x0A ∈ bs
  · obtain ⟨cs, rest, rfl, hcs⟩ := List.eq_append_cons_of_mem hfeed
    exact .inr ⟨cs ++ [0x0A], rest, by simp, .inl ⟨cs, hcs, rfl⟩, takeLine?_feed hcs true rest⟩
  · rcases eq_or_ne bs [] with rfl | hne
    · exact .inl ⟨rfl, rfl⟩
    · exact .inr ⟨bs, [], by simp, .inr ⟨hfeed, hne, rfl⟩, takeLine?_open hfeed hne⟩

/-- A line is read where there is one. -/
theorem IsLine.takeLine?_append (h : IsLine line rest) :
    takeLine? true (line ++ rest) = some (line, rest) := by
  rcases h with ⟨cs, hcs, rfl⟩ | ⟨hfeed, hne, rfl⟩
  · rw [List.append_assoc]
    exact takeLine?_feed hcs true rest
  · rw [List.append_nil]
    exact takeLine?_open hfeed hne

/-! ## What a line says -/

/-- A line with nothing but carriage returns before its end. -/
def IsBlank (line : List UInt8) : Prop :=
  ∃ k, line = List.replicate k 0x0D ∨ line = List.replicate k 0x0D ++ [0x0A]

/-- A line that is text with a colon in it. The name of the header stands before the first one,
its value after it. -/
def IsHeader (line : List UInt8) (name value : List Char) : Prop :=
  ':' ∉ name ∧ line = Utf8.encode (String.ofList (name ++ ':' :: value))

/-- A name that is `content-length` in letters of either case, with blanks around it or not. -/
def NamesLength (name : List Char) : Prop :=
  Text.asciiLower (Text.trimChars name) = "content-length".toList

instance (name : List Char) : Decidable (NamesLength name) :=
  inferInstanceAs (Decidable (_ = _))

theorem isLengthHeader_iff : isLengthHeader name = true ↔ NamesLength name := beq_iff_eq

/-- What a line of a header block says. -/
inductive Tells (line : List UInt8) : Line → Prop where
  | blank : IsBlank line → Tells line .blank
  | length {name value : List Char} {n : Nat} : IsHeader line name value → NamesLength name →
      Text.IsNumeral (Text.trimChars value) n → Tells line (.length n)
  | other {name value : List Char} : IsHeader line name value → ¬ NamesLength name →
      Tells line .other

/-! ## The end of a line -/

def endsLine (c : Char) : Bool := c == '\r' || c == '\n'

theorem endsLine_iff {c : Char} : endsLine c = true ↔ c = '\r' ∨ c = '\n' := by
  simp [endsLine]

theorem encode_of_endsLine (h : ∀ c ∈ cs, endsLine c = true) :
    Utf8.encode (String.ofList cs) = Utf8.ascii cs := by
  refine Utf8.encode_ofList_of_ascii fun c hc => ?_
  rcases endsLine_iff.mp (h c hc) with rfl | rfl <;> decide

theorem exists_dropLineEnd_append (cs : List Char) :
    ∃ tail, cs = dropLineEnd cs ++ tail ∧ ∀ c ∈ tail, endsLine c = true :=
  ⟨cs.rtakeWhile endsLine, List.rdropWhile_append_rtakeWhile.symm, fun _ => List.mem_rtakeWhile_imp⟩

theorem dropLineEnd_eq_nil_iff : dropLineEnd cs = [] ↔ ∀ c ∈ cs, endsLine c = true :=
  List.rdropWhile_eq_nil_iff

/-- What ends a line is blank, so it makes no difference to a value without the blanks around
it. -/
theorem trimChars_dropLineEnd (cs : List Char) :
    Text.trimChars (dropLineEnd cs) = Text.trimChars cs := by
  obtain ⟨tail, htail, hends⟩ := exists_dropLineEnd_append cs
  have hblank : ∀ c ∈ tail, Text.isBlank c = true := by
    intro c hc
    rcases endsLine_iff.mp (hends c hc) with rfl | rfl <;> decide
  conv_rhs => rw [htail]
  exact (Text.stripBy_append hblank _).symm

theorem dropLineEnd_append_colon (name value : List Char) :
    dropLineEnd (name ++ ':' :: value) = name ++ ':' :: dropLineEnd value := by
  have hcolon : ¬ endsLine ':' = true := by decide
  rw [dropLineEnd_eq_rdropWhile, dropLineEnd_eq_rdropWhile]
  induction value using List.reverseRecOn with
  | nil => exact List.rdropWhile_concat_neg endsLine name ':' hcolon
  | append_singleton cs c ih =>
      rw [← List.cons_append, ← List.append_assoc, List.rdropWhile_concat, ih,
        List.rdropWhile_concat]
      split <;> simp

theorem splitHeader?_of_notMem (h : ':' ∉ cs) : splitHeader? cs = none := by
  have hdrop : cs.dropWhile (· ≠ ':') = [] :=
    List.dropWhile_eq_nil_iff.mpr fun c hc => decide_eq_true fun heq => h (heq ▸ hc)
  rw [splitHeader?, hdrop]

/-! ## Reading a line -/

theorem readLine_of_endsLine (h : ∀ c ∈ cs, endsLine c = true) :
    readLine (Utf8.encode (String.ofList cs)) = .ok .blank := by
  rw [readLine, Utf8.decode?_encode]
  dsimp only
  rw [String.toList_ofList, dropLineEnd_eq_nil_iff.mpr h]
  rfl

/-- A line without a colon is blank or malformed. -/
theorem readLine_of_notMem (hcolon : ':' ∉ cs) (h : ¬ ∀ c ∈ cs, endsLine c = true) :
    readLine (Utf8.encode (String.ofList cs)) =
      .error (.malformedHeader (String.ofList (dropLineEnd cs))) := by
  have hne : dropLineEnd cs ≠ [] := fun hnil => h (dropLineEnd_eq_nil_iff.mp hnil)
  have hnone : splitHeader? (dropLineEnd cs) = none :=
    splitHeader?_of_notMem fun hmem => hcolon ((List.rdropWhile_prefix _ cs).subset hmem)
  rw [readLine, Utf8.decode?_encode]
  dsimp only
  rw [String.toList_ofList, if_neg (by simpa using hne), hnone]

theorem readLine_header (hname : ':' ∉ name) (value : List Char) :
    readLine (Utf8.encode (String.ofList (name ++ ':' :: value))) =
      if isLengthHeader name then
        match Text.number? (Text.trimChars value) with
        | none => .error (.invalidLength (String.ofList (Text.trimChars value)))
        | some n => .ok (.length n)
      else .ok .other := by
  have hall : name.all (fun c => c ≠ ':') = true :=
    List.all_eq_true.mpr fun c hc => decide_eq_true fun heq => hname (heq ▸ hc)
  rw [readLine, Utf8.decode?_encode]
  dsimp only
  rw [String.toList_ofList, dropLineEnd_append_colon, if_neg (by simp), splitHeader?_append hall]
  exact trimChars_dropLineEnd value ▸ rfl

theorem IsBlank.exists_endsLine (h : IsBlank line) :
    ∃ cs, line = Utf8.encode (String.ofList cs) ∧ ∀ c ∈ cs, endsLine c = true := by
  obtain ⟨k, h⟩ := h
  have hreturns : ∀ c ∈ List.replicate k '\r', endsLine c = true := fun c hc => by
    rw [List.eq_of_mem_replicate hc]
    rfl
  rcases h with rfl | rfl
  · refine ⟨List.replicate k '\r', ?_, hreturns⟩
    rw [encode_of_endsLine hreturns, Utf8.ascii, List.map_replicate]
    rfl
  · have hends : ∀ c ∈ List.replicate k '\r' ++ ['\n'], endsLine c = true := by
      intro c hc
      rcases List.mem_append.mp hc with hc | hc
      · exact hreturns c hc
      · rw [List.mem_singleton.mp hc]
        rfl
    refine ⟨List.replicate k '\r' ++ ['\n'], ?_, hends⟩
    rw [encode_of_endsLine hends, Utf8.ascii, List.map_append, List.map_replicate]
    rfl

/-- A line of carriage returns and line feeds is blank, since a line has no line feed but the
one at its end. -/
theorem IsLine.isBlank (h : IsLine line rest) (hends : ∀ b ∈ line, b = 0x0D ∨ b = 0x0A) :
    IsBlank line := by
  have returns {bs : List UInt8} (hfeed : 0x0A ∉ bs) (hbs : ∀ b ∈ bs, b = 0x0D ∨ b = 0x0A) :
      bs = List.replicate bs.length 0x0D :=
    List.eq_replicate_of_mem fun b hb => (hbs b hb).resolve_right fun heq => hfeed (heq ▸ hb)
  rcases h with ⟨bs, hfeed, rfl⟩ | ⟨hfeed, -, -⟩
  · refine ⟨bs.length, .inr ?_⟩
    rw [← returns hfeed fun b hb => hends b (List.mem_append_left _ hb)]
  · exact ⟨line.length, .inl (returns hfeed hends)⟩

/-- The reader finds out what a line says. -/
theorem readLine_of_tells (h : Tells line l) : readLine line = .ok l := by
  cases h with
  | blank h =>
      obtain ⟨cs, rfl, hcs⟩ := h.exists_endsLine
      exact readLine_of_endsLine hcs
  | length h hname hvalue =>
      obtain ⟨hcolon, rfl⟩ := h
      rw [readLine_header hcolon, if_pos (isLengthHeader_iff.mpr hname),
        Text.number?_eq_some_iff.mpr hvalue]
  | other h hname =>
      obtain ⟨hcolon, rfl⟩ := h
      rw [readLine_header hcolon, if_neg (mt isLengthHeader_iff.mp hname)]

theorem readLine_eq_ok_iff (hline : IsLine line rest) : readLine line = .ok l ↔ Tells line l := by
  refine ⟨fun h => ?_, readLine_of_tells⟩
  cases htext : Utf8.decode? line with
  | none =>
      rw [readLine, htext] at h
      cases h
  | some text =>
      obtain rfl := Utf8.decode?_eq_some_iff.mp htext
      obtain ⟨cs, rfl⟩ : ∃ cs, text = String.ofList cs := ⟨text.toList, text.ofList_toList.symm⟩
      by_cases hends : ∀ c ∈ cs, endsLine c = true
      · rw [readLine_of_endsLine hends] at h
        obtain rfl := Except.ok.inj h
        refine .blank (hline.isBlank fun b hb => ?_)
        rw [encode_of_endsLine hends] at hb
        obtain ⟨c, hc, rfl⟩ := List.mem_map.mp hb
        rcases endsLine_iff.mp (hends c hc) with rfl | rfl
        · exact .inl rfl
        · exact .inr rfl
      by_cases hcolon : ':' ∈ cs
      · obtain ⟨name, value, rfl, hname⟩ := List.eq_append_cons_of_mem hcolon
        rw [readLine_header hname] at h
        split at h
        · next hlength =>
            split at h
            · cases h
            · next n hn =>
                obtain rfl := Except.ok.inj h
                exact .length ⟨hname, rfl⟩ (isLengthHeader_iff.mp hlength) (Text.number?_eq_some_iff.mp hn)
        · next hlength =>
            obtain rfl := Except.ok.inj h
            exact .other ⟨hname, rfl⟩ fun hnames => hlength (isLengthHeader_iff.mpr hnames)
      · rw [readLine_of_notMem hcolon hends] at h
        cases h

end Frame

end SourceAtlas
