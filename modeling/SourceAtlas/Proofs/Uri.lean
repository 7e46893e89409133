import Mathlib.Data.List.Basic
import SourceAtlas.Proofs.Path
import SourceAtlas.Proofs.Text.Utf8
import SourceAtlas.Uri
/-!
# Reading back the uris of paths

The uri of a path is made octet by octet, and reading it unmakes every escape. What
comes back is the path with a separator for every backslash and with one in front
(`Path.separated`), less the separator before a drive: `toPath?_ofPath`.

Nothing else is lost, so two paths have the same uri exactly when they are the same
up to that: `ofPath_eq_ofPath_iff`.

Reading starts at the first separator behind the scheme, whoever wrote the uri
(`pathPart?_eq_some_iff`).
-/

namespace SourceAtlas

namespace Uri

variable {cs : List Char}

/-! ## Octets -/

/-- What an octet of a path is read back as. -/
def separateOctet (b : UInt8) : UInt8 := if b = 0x5C then 0x2F else b

/-- What a character of a path is read back as. -/
def separate (c : Char) : Char := if c = '\\' then '/' else c

theorem isPlain_of_lt {b : UInt8} (h : isPlain b = true) : b.toNat < 0x80 ∧ b ≠ 0x25 := by
  refine ⟨?_, by rintro rfl; exact absurd h (by decide)⟩
  simp only [isPlain, Bool.or_eq_true, Bool.and_eq_true, decide_eq_true_eq, beq_iff_eq,
    UInt8.le_iff_toNat_le] at h
  rcases h with ((((((h | h) | h) | rfl) | rfl) | rfl) | rfl) | rfl
  · exact Nat.lt_of_le_of_lt h.2 (by decide)
  · exact Nat.lt_of_le_of_lt h.2 (by decide)
  · exact Nat.lt_of_le_of_lt h.2 (by decide)
  all_goals decide

theorem hexDigit_spec {n : Nat} (hn : n < 16) :
    (hexDigit n).toNat < 0x80 ∧ hexValue? (UInt8.ofNat (hexDigit n).toNat) = some n := by
  revert n
  decide

theorem toNat_ofNat_toNat (b : UInt8) : (Char.ofNat b.toNat).toNat = b.toNat := by
  have hb : b.toNat < 256 := b.toNat_lt
  rw [Char.ofNat, dif_pos (.inl (by omega))]
  rfl

theorem toNat_lt_of_mem_escape {b : UInt8} {c : Char} (hc : c ∈ escape b) : c.toNat < 0x80 := by
  have hb : b.toNat < 256 := b.toNat_lt
  rw [escape] at hc
  split at hc
  · next hplain =>
      rw [List.mem_singleton.mp hc, toNat_ofNat_toNat]
      exact (isPlain_of_lt hplain).1
  · split at hc
    · rw [List.mem_singleton.mp hc]
      decide
    · simp only [List.mem_cons, List.not_mem_nil, or_false] at hc
      rcases hc with rfl | rfl | rfl
      · decide
      · exact (hexDigit_spec (by omega)).1
      · exact (hexDigit_spec (by omega)).1

theorem escape_separateOctet (b : UInt8) : escape (separateOctet b) = escape b := by
  rw [separateOctet]
  split
  · next h =>
      subst h
      decide
  · rfl

theorem unescape?_cons {b : UInt8} (hb : b ≠ 0x25) (rest : List UInt8) :
    unescape? (b :: rest) = (unescape? rest).map (b :: ·) := by
  conv_lhs => unfold unescape?
  rw [if_neg hb]

theorem unescape?_hex {m n : Nat} (hm : m < 16) (hn : n < 16) (rest : List UInt8) :
    unescape? (Utf8.ascii ['%', hexDigit m, hexDigit n] ++ rest) =
      (unescape? rest).map (UInt8.ofNat (m * 16 + n) :: ·) := by
  have hpercent : UInt8.ofNat '%'.toNat = 0x25 := rfl
  simp only [Utf8.ascii, List.map_cons, List.map_nil, List.cons_append, List.nil_append, hpercent,
    unescape?, if_true, (hexDigit_spec hm).2, (hexDigit_spec hn).2]
  cases unescape? rest <;> rfl

/-- Reading unmakes an escape and goes on behind it. -/
theorem unescape?_escape (b : UInt8) (rest : List UInt8) :
    unescape? (Utf8.ascii (escape b) ++ rest) = (unescape? rest).map (separateOctet b :: ·) := by
  have hb : b.toNat < 256 := b.toNat_lt
  rw [escape, separateOctet]
  split
  · next hplain =>
      have hne : b ≠ 0x5C := by
        rintro rfl
        exact absurd hplain (by decide)
      rw [if_neg hne, Utf8.ascii, List.map_singleton, toNat_ofNat_toNat, UInt8.ofNat_toNat]
      exact unescape?_cons (isPlain_of_lt hplain).2 rest
  · split
    · exact unescape?_cons (by decide) rest
    · rw [unescape?_hex (by omega) (by omega), Nat.div_add_mod', UInt8.ofNat_toNat]

theorem unescape?_flatMap_escape (bytes : List UInt8) :
    unescape? (Utf8.ascii (bytes.flatMap escape)) = some (bytes.map separateOctet) := by
  induction bytes with
  | nil => rfl
  | cons b bytes ih =>
      rw [List.flatMap_cons, Utf8.ascii, List.map_append, ← Utf8.ascii, ← Utf8.ascii, unescape?_escape, ih]
      rfl

/-! ## The part behind the authority -/

theorem ascii_scheme : ∀ c ∈ scheme, c.toNat < 0x80 := by
  have hall : scheme.all fun c => c.toNat < 0x80 := by decide
  simpa using hall

theorem pathPart?_of_other_scheme (h : ¬ scheme <+: cs) : pathPart? (String.ofList cs) = none := by
  rw [pathPart?, Utf8.encode_ofList_of_ascii ascii_scheme, if_neg]
  rw [List.isPrefixOf_iff_prefix, Utf8.ascii_prefix_encode_iff ascii_scheme]
  exact h

theorem pathPart?_scheme (cs : List Char) :
    pathPart? (String.ofList (scheme ++ cs)) =
      match Utf8.encode (String.ofList (cs.dropWhile (· ≠ '/'))) with
      | [] => none
      | part => some part := by
  have hdrop := Utf8.dropWhile_encode (c := '/') (by decide) cs
  rw [pathPart?, Utf8.encode_ofList_append, Utf8.encode_ofList_of_ascii ascii_scheme, if_pos,
    List.drop_left, ← hdrop]
  · rfl
  · exact List.isPrefixOf_iff_prefix.mpr (List.prefix_append _ _)

theorem pathPart?_of_notMem (h : '/' ∉ cs) : pathPart? (String.ofList (scheme ++ cs)) = none := by
  have hdrop : cs.dropWhile (· ≠ '/') = [] :=
    List.dropWhile_eq_nil_iff.mpr fun c hc => decide_eq_true fun heq => h (heq ▸ hc)
  rw [pathPart?_scheme, hdrop, Utf8.encode_eq_nil_iff.mpr rfl]

theorem pathPart?_authority {authority : List Char} (h : '/' ∉ authority) (cs : List Char) :
    pathPart? (String.ofList (scheme ++ (authority ++ '/' :: cs))) =
      some (Utf8.encode (String.ofList ('/' :: cs))) := by
  have hne : ∀ c ∈ authority, decide (c ≠ '/') = true := fun c hc =>
    decide_eq_true fun heq => h (heq ▸ hc)
  rw [pathPart?_scheme, List.dropWhile_append_of_pos hne, List.dropWhile_cons_of_neg (by simp),
    Utf8.encode_ofList_cons_of_lt (by decide)]

/-- Behind the scheme the path starts at the first separator. -/
theorem pathPart?_eq_some_iff {part : List UInt8} :
    pathPart? (String.ofList cs) = some part ↔
      ∃ authority rest, cs = scheme ++ authority ++ '/' :: rest ∧ '/' ∉ authority ∧
        part = Utf8.encode (String.ofList ('/' :: rest)) := by
  constructor
  · intro h
    by_cases hscheme : scheme <+: cs
    · obtain ⟨cs, rfl⟩ := hscheme
      by_cases hmem : '/' ∈ cs
      · obtain ⟨authority, rest, rfl, hauthority⟩ := List.eq_append_cons_of_mem hmem
        rw [pathPart?_authority hauthority] at h
        exact ⟨authority, rest, (List.append_assoc _ _ _).symm, hauthority, (Option.some.inj h).symm⟩
      · rw [pathPart?_of_notMem hmem] at h
        cases h
    · rw [pathPart?_of_other_scheme hscheme] at h
      cases h
  · rintro ⟨authority, rest, rfl, hauthority, rfl⟩
    rw [List.append_assoc]
    exact pathPart?_authority hauthority rest

/-! ## Texts -/

/-- A backslash is an octet of its own, and no part of another character. -/
theorem map_separateOctet_utf8EncodeChar (c : Char) :
    (String.utf8EncodeChar c).map separateOctet = String.utf8EncodeChar (separate c) := by
  by_cases hback : c = '\\'
  · subst hback
    decide
  · rw [separate, if_neg hback]
    refine (List.map_congr_left fun b hb => ?_).trans (List.map_id _)
    rw [separateOctet, if_neg, id_eq]
    rintro rfl
    exact hback (Char.toNat_inj.mp (Utf8.toNat_eq_of_mem_utf8EncodeChar (by decide) hb))

theorem map_separate_of_notMem (h : '\\' ∉ cs) : cs.map separate = cs := by
  refine (List.map_congr_left fun c hc => ?_).trans (List.map_id _)
  have hne : c ≠ '\\' := fun heq => h (heq ▸ hc)
  rw [separate, if_neg hne, id_eq]

theorem map_separateOctet_encode (cs : List Char) :
    (Utf8.encode (String.ofList cs)).map separateOctet =
      Utf8.encode (String.ofList (cs.map separate)) := by
  induction cs with
  | nil => rw [List.map_nil, Utf8.encode_eq_nil_iff.mpr rfl, List.map_nil]
  | cons c cs ih =>
      rw [Utf8.encode_ofList_cons, List.map_append, ih, map_separateOctet_utf8EncodeChar,
        List.map_cons, Utf8.encode_ofList_cons]

end Uri

/-- The characters of a path as its uri spells them: with a separator in front and for
every backslash. -/
def Path.separated (p : Path) : List Char :=
  ((if p.isAbsolute then [] else ['/']) ++ p.text.toList).map Uri.separate

namespace Path

/-- Whether a path starts as one to a drive does in a uri: with a letter of ASCII and a colon
behind the separator. -/
def HasDrive (p : Path) : Prop :=
  ∃ d rest, p.text.toList = '/' :: d :: ':' :: rest ∧ d.isAlpha = true

theorem separated_of_isAbsolute {p : Path} (h : p.isAbsolute = true) :
    p.separated = p.text.toList.map Uri.separate := by
  rw [separated, if_pos h, List.nil_append]

theorem exists_separated_eq_cons (p : Path) : ∃ cs, p.separated = '/' :: cs := by
  rw [separated]
  split
  · next h =>
      obtain ⟨cs, hcs⟩ := isAbsolute_iff.mp h
      exact ⟨cs.map Uri.separate, by rw [hcs]; rfl⟩
  · exact ⟨p.text.toList.map Uri.separate, rfl⟩

theorem map_separate_separated (p : Path) : p.separated.map Uri.separate = p.separated := by
  rw [separated, List.map_map]
  refine List.map_congr_left fun c _ => ?_
  rw [Function.comp_apply, Uri.separate, Uri.separate]
  split
  · decide
  · next hc => rfl

end Path

namespace Uri

theorem flatMap_escape_map_separateOctet (bytes : List UInt8) :
    (bytes.map separateOctet).flatMap escape = bytes.flatMap escape := by
  simp only [List.flatMap_map, escape_separateOctet]

theorem ofPath_eq (p : Path) :
    ofPath p = String.ofList
      (scheme ++ (Utf8.encode (String.ofList p.separated)).flatMap escape) := by
  have hbody (cs : List Char) :
      (Utf8.encode (String.ofList (cs.map separate))).flatMap escape =
        (Utf8.encode (String.ofList cs)).flatMap escape := by
    rw [← map_separateOctet_encode, flatMap_escape_map_separateOctet]
  rw [ofPath, Path.separated, hbody]
  split
  · rw [List.append_nil, List.nil_append, String.ofList_toList]
  · have hslash : escape (UInt8.ofNat '/'.toNat) = ['/'] := by decide
    rw [List.singleton_append, Utf8.encode_ofList_cons_of_lt (by decide), List.flatMap_cons,
      hslash, String.ofList_toList, List.append_assoc]

theorem ofPath_of_ascii {p : Path} (h : p.separated.all fun c => c.toNat < 0x80) :
    ofPath p = String.ofList (scheme ++ (Utf8.ascii p.separated).flatMap escape) := by
  rw [ofPath_eq, Utf8.encode_ofList_of_ascii (by simpa using h)]

theorem pathPart?_ofPath (p : Path) :
    pathPart? (ofPath p) =
      some (Utf8.ascii ((Utf8.encode (String.ofList p.separated)).flatMap escape)) := by
  obtain ⟨cs, hcs⟩ := p.exists_separated_eq_cons
  have hslash : escape (UInt8.ofNat '/'.toNat) = ['/'] := by decide
  have hbody : (Utf8.encode (String.ofList p.separated)).flatMap escape =
      '/' :: (Utf8.encode (String.ofList cs)).flatMap escape := by
    rw [hcs, Utf8.encode_ofList_cons_of_lt (by decide), List.flatMap_cons, hslash,
      List.singleton_append]
  have hascii : ∀ c ∈ (Utf8.encode (String.ofList p.separated)).flatMap escape,
      c.toNat < 0x80 := by
    intro c hc
    obtain ⟨b, -, hb⟩ := List.mem_flatMap.mp hc
    exact toNat_lt_of_mem_escape hb
  rw [ofPath_eq, ← Utf8.encode_ofList_of_ascii hascii, hbody]
  exact pathPart?_authority List.not_mem_nil _

/-- What the uri of a path is read back as. -/
theorem toPath?_ofPath (p : Path) :
    toPath? (ofPath p) = some ⟨String.ofList (dropDriveSeparator p.separated)⟩ := by
  simp only [toPath?, pathPart?_ofPath, Option.bind_eq_bind, Option.bind_some,
    unescape?_flatMap_escape, map_separateOctet_encode, Path.map_separate_separated,
    Utf8.decode?_encode, String.toList_ofList, Option.pure_def]

theorem dropDriveSeparator_of_hasDrive {p : Path} (h : p.HasDrive) :
    p.text.toList = '/' :: dropDriveSeparator p.text.toList := by
  obtain ⟨d, rest, hchars, halpha⟩ := h
  have hdrop : dropDriveSeparator ('/' :: d :: ':' :: rest) = d :: ':' :: rest := if_pos halpha
  rw [hchars, hdrop]

theorem dropDriveSeparator_of_not_hasDrive {p : Path} (h : ¬ p.HasDrive) :
    dropDriveSeparator p.text.toList = p.text.toList := by
  unfold dropDriveSeparator
  split
  · next d rest hchars =>
      rw [if_neg fun halpha => h ⟨d, rest, hchars, halpha⟩, hchars]
  · rfl

/-- A path is read back as it was exactly where nothing in it means something else. -/
theorem toPath?_ofPath_of_isAbsolute {p : Path} (habsolute : p.isAbsolute = true)
    (hback : '\\' ∉ p.text.toList) (hdrive : ¬ p.HasDrive) : toPath? (ofPath p) = some p := by
  have hseparated : p.separated = p.text.toList := by
    rw [Path.separated_of_isAbsolute habsolute, map_separate_of_notMem hback]
  rw [toPath?_ofPath, hseparated, dropDriveSeparator_of_not_hasDrive hdrive, String.ofList_toList]

/-- A path that looks like one to a drive loses the separator it starts with. -/
theorem isAbsolute_dropDriveSeparator {p : Path} (hdrive : p.HasDrive) :
    (⟨String.ofList (dropDriveSeparator p.separated)⟩ : Path).isAbsolute = false := by
  obtain ⟨d, rest, hchars, halpha⟩ := hdrive
  have habsolute : p.isAbsolute = true := Path.isAbsolute_iff.mpr ⟨_, hchars⟩
  have hletter : separate d = d := by
    rw [separate, if_neg]
    rintro rfl
    exact absurd halpha (by decide)
  have hslash : d ≠ '/' := by
    rintro rfl
    exact absurd halpha (by decide)
  have hdrop : dropDriveSeparator p.separated = d :: ':' :: rest.map separate := by
    rw [Path.separated_of_isAbsolute habsolute, hchars, List.map_cons, List.map_cons,
      List.map_cons, hletter]
    exact if_pos halpha
  rw [hdrop, Bool.eq_false_iff]
  intro habsolute
  obtain ⟨cs, hcs⟩ := Path.isAbsolute_iff.mp habsolute
  rw [String.toList_ofList] at hcs
  exact hslash (List.cons.inj hcs).1

theorem backslash_notMem_dropDriveSeparator (p : Path) :
    '\\' ∉ dropDriveSeparator p.separated := by
  have hseparated : '\\' ∉ p.separated := by
    rw [Path.separated, List.mem_map]
    rintro ⟨c, -, hc⟩
    rw [separate] at hc
    split at hc
    · cases hc
    · next hne => exact hne hc
  have hsub : ∀ cs : List Char, dropDriveSeparator cs ⊆ cs := by
    intro cs
    unfold dropDriveSeparator
    split
    · split
      · exact List.subset_cons_self _ _
      · exact List.Subset.refl _
    · exact List.Subset.refl _
  exact fun hmem => hseparated (hsub _ hmem)

/-- Two paths have one uri exactly when they are spelled the same. -/
theorem ofPath_eq_ofPath_iff {p q : Path} : ofPath p = ofPath q ↔ p.separated = q.separated := by
  refine ⟨fun h => ?_, fun h => by rw [ofPath_eq, ofPath_eq, h]⟩
  have hread : (pathPart? (ofPath p)).bind unescape? = (pathPart? (ofPath q)).bind unescape? := by
    rw [h]
  rw [pathPart?_ofPath, pathPart?_ofPath, Option.bind_some, Option.bind_some,
    unescape?_flatMap_escape, unescape?_flatMap_escape, map_separateOctet_encode,
    map_separateOctet_encode, Path.map_separate_separated, Path.map_separate_separated] at hread
  have htext := congrArg Utf8.decode? (Option.some.inj hread)
  rw [Utf8.decode?_encode, Utf8.decode?_encode] at htext
  exact String.ofList_injective (Option.some.inj htext)

end Uri

end SourceAtlas
