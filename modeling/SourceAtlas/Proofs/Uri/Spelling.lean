import SourceAtlas.Proofs.Uri
/-!
# Every spelling of a path

What the characters of a uri stand for is told without the reader: each escape for the octet
of its two digits, every other character for its own octets (`Stands`). They stand for
something exactly when no escape is malformed (`wellEscaped_iff`), and the reader finds out
just that (`unescape?_encode_eq_some_iff`), so `toPath?_eq_some_iff` says which uris are read
and as what.

One path has many spellings: behind its first separator any character may be written as it is
or as escapes of its octets, except that a percent sign is always escaped (`Spells`). All of
them stand for the same octets, `Spells.stands`.
-/

namespace SourceAtlas

namespace Uri

variable {x y : Char} {m n : Nat} {cs written : List Char} {bytes rest : List UInt8}

/-! ## Hexadecimal digits -/

/-- The hexadecimal digits with their values, in letters of either case. -/
def hexDigits : List (Char × Nat) :=
  "0123456789abcdef".toList.zipIdx ++ "ABCDEF".toList.zipIdx 10

def IsHexDigit (c : Char) (v : Nat) : Prop := (c, v) ∈ hexDigits

instance (c : Char) (v : Nat) : Decidable (IsHexDigit c v) :=
  inferInstanceAs (Decidable (_ ∈ _))

theorem isHexDigit_iff :
    IsHexDigit x m ↔ x.toNat < 0x80 ∧ hexValue? (UInt8.ofNat x.toNat) = some m := by
  have hread : ∀ d ∈ hexDigits,
      d.1.toNat < 0x80 ∧ hexValue? (UInt8.ofNat d.1.toNat) = some d.2 := by decide
  have hlist : ∀ k < 0x80, ∀ v ∈ hexValue? (UInt8.ofNat k), (Char.ofNat k, v) ∈ hexDigits := by
    decide
  refine ⟨hread (x, m), fun ⟨hlt, hvalue⟩ => ?_⟩
  rw [IsHexDigit, ← Char.ofNat_toNat x]
  exact hlist x.toNat hlt m hvalue

theorem lt_of_hexValue?_eq_some {b : UInt8} (h : hexValue? b = some n) : b.toNat < 0x80 := by
  simp only [hexValue?, Bool.and_eq_true, decide_eq_true_eq, UInt8.le_iff_toNat_le] at h
  split at h
  · next hle => exact hle.2.trans_lt (by decide)
  · split at h
    · next hle => exact hle.2.trans_lt (by decide)
    · split at h
      · next hle => exact hle.2.trans_lt (by decide)
      · cases h

/-! ## What characters stand for -/

/-- The octets that characters of a uri stand for: an escape for the octet of its two digits,
any other character for its own octets. -/
inductive Stands : List Char → List UInt8 → Prop where
  | nil : Stands [] []
  | raw {c : Char} {cs : List Char} {bytes : List UInt8} : c ≠ '%' → Stands cs bytes →
      Stands (c :: cs) (String.utf8EncodeChar c ++ bytes)
  | escape {x y : Char} {m n : Nat} {cs : List Char} {bytes : List UInt8} : IsHexDigit x m →
      IsHexDigit y n → Stands cs bytes →
      Stands ('%' :: x :: y :: cs) (UInt8.ofNat (m * 16 + n) :: bytes)

/-- Every percent sign has two hexadecimal digits behind it. -/
def WellEscaped (cs : List Char) : Prop :=
  ∀ before after, cs = before ++ '%' :: after →
    ∃ x y more m n, after = x :: y :: more ∧ IsHexDigit x m ∧ IsHexDigit y n

theorem IsHexDigit.ne_percent (h : IsHexDigit x m) : x ≠ '%' := by
  rintro rfl
  have hnone : ∀ d ∈ hexDigits, d.1 ≠ '%' := by decide
  exact hnone _ h rfl

theorem wellEscaped_cons (hx : x ≠ '%') : WellEscaped (x :: cs) ↔ WellEscaped cs := by
  constructor
  · rintro h before after rfl
    exact h (x :: before) after rfl
  · intro h before after heq
    cases before with
    | nil => exact absurd (List.cons.inj heq).1 hx
    | cons c before => exact h before after (List.cons.inj heq).2

theorem wellEscaped_escape (hx : IsHexDigit x m) (hy : IsHexDigit y n) :
    WellEscaped ('%' :: x :: y :: cs) ↔ WellEscaped cs := by
  refine Iff.trans ?_ ((wellEscaped_cons hx.ne_percent).trans (wellEscaped_cons hy.ne_percent))
  constructor
  · rintro h before after heq
    exact h ('%' :: before) after (by rw [heq, List.cons_append])
  · intro h before after heq
    cases before with
    | nil => exact ⟨x, y, cs, m, n, (List.cons.inj heq).2.symm, hx, hy⟩
    | cons c before => exact h before after (List.cons.inj heq).2

theorem Stands.wellEscaped (h : Stands cs bytes) : WellEscaped cs := by
  induction h with
  | nil => exact fun before after heq => absurd heq.symm (by simp)
  | raw hc _ ih => exact (wellEscaped_cons hc).mpr ih
  | escape hx hy _ ih => exact (wellEscaped_escape hx hy).mpr ih

theorem WellEscaped.exists_stands (h : WellEscaped cs) : ∃ bytes, Stands cs bytes := by
  induction cs using (measure List.length).wf.induction with
  | _ cs ih =>
      cases cs with
      | nil => exact ⟨[], .nil⟩
      | cons c cs =>
          by_cases hc : c = '%'
          · subst hc
            obtain ⟨x, y, more, m, n, rfl, hx, hy⟩ := h [] cs rfl
            have hshort : more.length < ('%' :: x :: y :: more).length := by simp; omega
            obtain ⟨bytes, hbytes⟩ := ih more hshort ((wellEscaped_escape hx hy).mp h)
            exact ⟨_, .escape hx hy hbytes⟩
          · obtain ⟨bytes, hbytes⟩ := ih cs (Nat.lt_succ_self _) ((wellEscaped_cons hc).mp h)
            exact ⟨_, .raw hc hbytes⟩

/-! ## Reading the escapes -/

theorem percent_notMem_utf8EncodeChar (hx : x ≠ '%') : 0x25 ∉ String.utf8EncodeChar x :=
  fun hmem => hx (Char.toNat_inj.mp (Utf8.toNat_eq_of_mem_utf8EncodeChar (by decide) hmem))

theorem unescape?_append_of_notMem {before : List UInt8} (h : 0x25 ∉ before) :
    unescape? (before ++ rest) = (unescape? rest).map (before ++ ·) := by
  induction before with
  | nil => exact Option.map_id'.symm
  | cons b before ih =>
      rw [List.mem_cons, not_or] at h
      rw [List.cons_append, unescape?_cons (Ne.symm h.1), ih h.2, Option.map_map]
      rfl

theorem unescape?_raw (hx : x ≠ '%') (cs : List Char) :
    unescape? (Utf8.encode (String.ofList (x :: cs))) =
      (unescape? (Utf8.encode (String.ofList cs))).map (String.utf8EncodeChar x ++ ·) := by
  rw [Utf8.encode_ofList_cons, unescape?_append_of_notMem (percent_notMem_utf8EncodeChar hx)]

theorem unescape?_percent_eq_some_iff :
    unescape? (0x25 :: rest) = some bytes ↔
      ∃ b c more m n tail, rest = b :: c :: more ∧ hexValue? b = some m ∧ hexValue? c = some n ∧
        unescape? more = some tail ∧ bytes = UInt8.ofNat (m * 16 + n) :: tail := by
  constructor
  · intro h
    unfold unescape? at h
    rw [if_pos rfl] at h
    split at h
    · next b c more =>
        simp only [Option.bind_eq_bind, Option.bind_eq_some_iff, Option.pure_def,
          Option.some.injEq] at h
        obtain ⟨m, hm, n, hn, tail, htail, rfl⟩ := h
        exact ⟨b, c, more, m, n, tail, rfl, hm, hn, htail, rfl⟩
    · cases h
  · rintro ⟨b, c, more, m, n, tail, rfl, hm, hn, htail, rfl⟩
    rw [unescape?, if_pos rfl]
    simp only [hm, hn, htail, Option.bind_eq_bind, Option.bind_some, Option.pure_def]

theorem encode_percent (cs : List Char) :
    Utf8.encode (String.ofList ('%' :: cs)) = 0x25 :: Utf8.encode (String.ofList cs) :=
  Utf8.encode_ofList_cons_of_lt (by decide) cs

theorem IsHexDigit.encode_cons (h : IsHexDigit x m) (cs : List Char) :
    Utf8.encode (String.ofList (x :: cs)) =
      UInt8.ofNat x.toNat :: Utf8.encode (String.ofList cs) :=
  Utf8.encode_ofList_cons_of_lt (isHexDigit_iff.mp h).1 cs

theorem exists_isHexDigit_of_encode_eq_cons {b : UInt8} (hb : hexValue? b = some m)
    (h : Utf8.encode (String.ofList cs) = b :: rest) :
    ∃ x cs', cs = x :: cs' ∧ IsHexDigit x m ∧ rest = Utf8.encode (String.ofList cs') := by
  have hlt : b.toNat < 0x80 := lt_of_hexValue?_eq_some hb
  obtain ⟨x, cs', rfl, hx, hrest⟩ := Utf8.exists_cons_of_encode_eq_cons hlt h
  refine ⟨x, cs', rfl, isHexDigit_iff.mpr ⟨hx ▸ hlt, ?_⟩, hrest⟩
  rw [hx, UInt8.ofNat_toNat, hb]

theorem Stands.unescape?_eq (h : Stands cs bytes) :
    unescape? (Utf8.encode (String.ofList cs)) = some bytes := by
  induction h with
  | nil => rw [Utf8.encode_eq_nil_iff.mpr rfl, unescape?]
  | raw hc _ ih => rw [unescape?_raw hc, ih, Option.map_some]
  | escape hx hy _ ih =>
      rw [encode_percent, hx.encode_cons, hy.encode_cons]
      exact unescape?_percent_eq_some_iff.mpr ⟨_, _, _, _, _, _, rfl, (isHexDigit_iff.mp hx).2,
        (isHexDigit_iff.mp hy).2, ih, rfl⟩

theorem stands_of_unescape?_eq_some (h : unescape? (Utf8.encode (String.ofList cs)) = some bytes) :
    Stands cs bytes := by
  induction cs using (measure List.length).wf.induction generalizing bytes with
  | _ cs ih =>
      cases cs with
      | nil =>
          rw [Utf8.encode_eq_nil_iff.mpr rfl, unescape?] at h
          exact Option.some.inj h ▸ .nil
      | cons c cs =>
          by_cases hc : c = '%'
          · subst hc
            rw [encode_percent, unescape?_percent_eq_some_iff] at h
            obtain ⟨b, d, more, m, n, tail, hrest, hm, hn, htail, rfl⟩ := h
            -- The two octets read as digits are characters of their own, so what is behind them
            -- is text again.
            obtain ⟨x, cs', rfl, hx, hrest'⟩ := exists_isHexDigit_of_encode_eq_cons hm hrest
            obtain ⟨y, cs'', rfl, hy, rfl⟩ := exists_isHexDigit_of_encode_eq_cons hn hrest'.symm
            have hshort : cs''.length < ('%' :: x :: y :: cs'').length := by simp; omega
            exact .escape hx hy (ih cs'' hshort htail)
          · rw [unescape?_raw hc, Option.map_eq_some_iff] at h
            obtain ⟨tail, htail, rfl⟩ := h
            exact .raw hc (ih cs (Nat.lt_succ_self _) htail)

/-- The reader finds out what characters stand for. -/
theorem unescape?_encode_eq_some_iff :
    unescape? (Utf8.encode (String.ofList cs)) = some bytes ↔ Stands cs bytes :=
  ⟨stands_of_unescape?_eq_some, Stands.unescape?_eq⟩

/-- Characters stand for something where no escape is malformed, and for one thing only. -/
theorem wellEscaped_iff : WellEscaped cs ↔ ∃! bytes, Stands cs bytes := by
  refine ⟨fun h => ?_, fun ⟨bytes, hbytes, _⟩ => Stands.wellEscaped hbytes⟩
  obtain ⟨bytes, hbytes⟩ := h.exists_stands
  refine ⟨bytes, hbytes, fun other hother => ?_⟩
  exact Option.some.inj (hother.unescape?_eq.symm.trans hbytes.unescape?_eq)

/-! ## Every uri -/

/-- The path that a text is read as: without the separator in front of a drive, and else as it
is. -/
def ReadAs (text : String) (p : Path) : Prop :=
  (Path.HasDrive ⟨text⟩ → text.toList = '/' :: p.text.toList) ∧
    (¬ Path.HasDrive ⟨text⟩ → p.text = text)

theorem readAs_iff {text : String} {p : Path} :
    ReadAs text p ↔ p = ⟨String.ofList (dropDriveSeparator text.toList)⟩ := by
  by_cases hdrive : Path.HasDrive ⟨text⟩
  · have hdrop := dropDriveSeparator_of_hasDrive hdrive
    constructor
    · intro h
      have htext := (h.1 hdrive).symm.trans hdrop
      rw [← (List.cons.inj htext).2, String.ofList_toList]
    · rintro rfl
      exact ⟨fun _ => by rw [String.toList_ofList]; exact hdrop, fun h => absurd hdrive h⟩
  · rw [dropDriveSeparator_of_not_hasDrive hdrive, String.ofList_toList]
    constructor
    · intro h
      rw [← h.2 hdrive]
    · rintro rfl
      exact ⟨fun h => absurd h hdrive, fun _ => rfl⟩

theorem toPath?_eq_some_iff {uri : String} {p : Path} :
    toPath? uri = some p ↔
      ∃ authority rest text, uri = String.ofList (scheme ++ authority ++ '/' :: rest) ∧
        '/' ∉ authority ∧ Stands ('/' :: rest) (Utf8.encode text) ∧ ReadAs text p := by
  obtain ⟨cs, rfl⟩ : ∃ cs, uri = String.ofList cs := ⟨uri.toList, uri.ofList_toList.symm⟩
  simp only [toPath?, Option.bind_eq_bind, Option.bind_eq_some_iff, Option.pure_def,
    Option.some.injEq, pathPart?_eq_some_iff, Utf8.decode?_eq_some_iff, String.ofList_inj]
  constructor
  · rintro ⟨part, ⟨authority, rest, hcs, hauthority, rfl⟩, bytes, hbytes, text, rfl, hp⟩
    exact ⟨authority, rest, text, hcs, hauthority, unescape?_encode_eq_some_iff.mp hbytes,
      readAs_iff.mpr hp.symm⟩
  · rintro ⟨authority, rest, text, hcs, hauthority, hstands, hp⟩
    exact ⟨_, ⟨authority, rest, hcs, hauthority, rfl⟩, _, unescape?_encode_eq_some_iff.mpr hstands,
      text, rfl, (readAs_iff.mp hp).symm⟩

/-! ## Spellings of one path -/

/-- Escapes of octets, one for each, with digits in letters of either case. -/
inductive Escapes : List Char → List UInt8 → Prop where
  | nil : Escapes [] []
  | cons {x y : Char} {m n : Nat} {written : List Char} {bytes : List UInt8} : IsHexDigit x m →
      IsHexDigit y n → Escapes written bytes →
      Escapes ('%' :: x :: y :: written) (UInt8.ofNat (m * 16 + n) :: bytes)

/-- A way to write characters in a uri: each one as it is, unless it is a percent sign, or as
escapes of its octets. -/
inductive Spells : List Char → List Char → Prop where
  | nil : Spells [] []
  | raw {c : Char} {written cs : List Char} : c ≠ '%' → Spells written cs →
      Spells (c :: written) (c :: cs)
  | escaped {c : Char} {escapes written cs : List Char} :
      Escapes escapes (String.utf8EncodeChar c) → Spells written cs →
      Spells (escapes ++ written) (c :: cs)

theorem Escapes.stands_append {escapes : List Char} {octets : List UInt8}
    (h : Escapes escapes octets) (hwritten : Stands written bytes) :
    Stands (escapes ++ written) (octets ++ bytes) := by
  induction h with
  | nil => exact hwritten
  | cons hx hy _ ih => exact .escape hx hy ih

/-- However characters are written, they stand for the octets of the text they spell. -/
theorem Spells.stands (h : Spells written cs) :
    Stands written (Utf8.encode (String.ofList cs)) := by
  induction h with
  | nil =>
      rw [Utf8.encode_eq_nil_iff.mpr rfl]
      exact .nil
  | raw hc _ ih =>
      rw [Utf8.encode_ofList_cons]
      exact .raw hc ih
  | escaped hescapes _ ih =>
      rw [Utf8.encode_ofList_cons]
      exact hescapes.stands_append ih

/-- A uri is read where it has the scheme, a separator behind an authority, no malformed escape
from there on and octets that are text, and it is read as that text. So all spellings of a path
are read as the same path. -/
theorem toPath?_reads_every_spelling :
    (∀ uri p, toPath? uri = some p ↔
      ∃ authority rest text, uri = String.ofList (scheme ++ authority ++ '/' :: rest) ∧
        '/' ∉ authority ∧ WellEscaped rest ∧ Stands ('/' :: rest) (Utf8.encode text) ∧
          ReadAs text p) ∧
    (∀ cs, WellEscaped cs ↔ ∃! bytes, Stands cs bytes) ∧
    (∀ text, ∃! p, ReadAs text p) ∧
    ∀ cs, ∃ p, ReadAs (String.ofList ('/' :: cs)) p ∧
      ∀ authority written, '/' ∉ authority → Spells written cs →
        toPath? (String.ofList (scheme ++ authority ++ '/' :: written)) = some p := by
  have hreads (text : String) : ∃! p, ReadAs text p := by
    simp only [readAs_iff]
    exact existsUnique_eq
  have hslash : '/' ≠ '%' := by decide
  refine ⟨fun uri p => ?_, fun cs => wellEscaped_iff, hreads, fun cs => ?_⟩
  · rw [toPath?_eq_some_iff]
    constructor
    · rintro ⟨authority, rest, text, huri, hauthority, hstands, hp⟩
      have hescaped : WellEscaped rest := (wellEscaped_cons hslash).mp hstands.wellEscaped
      exact ⟨authority, rest, text, huri, hauthority, hescaped, hstands, hp⟩
    · rintro ⟨authority, rest, text, huri, hauthority, -, hstands, hp⟩
      exact ⟨authority, rest, text, huri, hauthority, hstands, hp⟩
  · obtain ⟨p, hp, -⟩ := hreads (String.ofList ('/' :: cs))
    refine ⟨p, hp, fun authority written hauthority hspells => ?_⟩
    have hstands : Stands ('/' :: written) (Utf8.encode (String.ofList ('/' :: cs))) :=
      (Spells.raw hslash hspells).stands
    exact toPath?_eq_some_iff.mpr ⟨authority, written, _, rfl, hauthority, hstands, hp⟩

/-- A path to a drive, and how a server writes it that escapes the colon, the percent sign and
one of two letters outside ASCII, with digits in letters of either case. -/
def driveName : List Char := ['C', ':', '/', 'é', '%', 'é']

def driveWritten : List Char :=
  ['C', '%', '3', 'a', '/', '%', 'c', '3', '%', 'A', '9', '%', '2', '5', 'é']

theorem spells_driveName : Spells driveWritten driveName := by
  have hcolon : Escapes ['%', '3', 'a'] (String.utf8EncodeChar ':') :=
    .cons (m := 3) (n := 10) (by decide) (by decide) .nil
  have hletter : Escapes ['%', 'c', '3', '%', 'A', '9'] (String.utf8EncodeChar 'é') :=
    .cons (m := 12) (n := 3) (by decide) (by decide)
      (.cons (m := 10) (n := 9) (by decide) (by decide) .nil)
  have hpercent : Escapes ['%', '2', '5'] (String.utf8EncodeChar '%') :=
    .cons (m := 2) (n := 5) (by decide) (by decide) .nil
  exact .raw (by decide) (.escaped hcolon (.raw (by decide) (.escaped hletter
    (.escaped hpercent (.raw (by decide) .nil)))))

theorem toPath?_reads_every_spelling_driveName :
    Spells driveWritten driveName ∧
      toPath? (String.ofList (scheme ++ "localhost".toList ++ '/' :: driveWritten)) =
        some ⟨String.ofList driveName⟩ := by
  refine ⟨spells_driveName, ?_⟩
  obtain ⟨p, hp, hread⟩ := toPath?_reads_every_spelling.2.2.2 driveName
  have hdrop : dropDriveSeparator ('/' :: driveName) = driveName := by decide
  rw [readAs_iff, String.toList_ofList, hdrop] at hp
  rw [← hp]
  exact hread "localhost".toList driveWritten (by decide) spells_driveName

end Uri

end SourceAtlas
