import SourceAtlas.Proofs.Uri
/-!
# Which paths come back from their uris

An absolute path comes back from its uri unless it has a backslash in it or starts as one to a
drive does: `toPath?_ofPath_iff`. In both cases it does not come back as another text for the
same place either, because a backslash is part of a step and a path without its first separator
does not start at the root (`of_components_toPath?_ofPath`).

Whatever a path holds, its uri is written with letters and digits of ASCII, a few marks and
escapes in upper case: `exists_written_eq_ofPath`.
-/

namespace SourceAtlas

namespace Uri

variable {p q : Path} {cs : List Char}

/-! ## What a uri is written with -/

def upperDigits : List Char := "0123456789ABCDEF".toList

/-- Letters and digits of ASCII, the separator, four marks, and escapes with digits in upper
case. -/
inductive Written : List Char → Prop where
  | nil : Written []
  | plain {c : Char} {cs : List Char} :
      c.isAlphanum = true ∨ c ∈ ['/', '-', '_', '.', '~'] → Written cs → Written (c :: cs)
  | escape {x y : Char} {cs : List Char} : x ∈ upperDigits → y ∈ upperDigits → Written cs →
      Written ('%' :: x :: y :: cs)

theorem isAlphanum_or_mem_of_isPlain {b : UInt8} (h : isPlain b = true) :
    (Char.ofNat b.toNat).isAlphanum = true ∨ Char.ofNat b.toNat ∈ ['/', '-', '_', '.', '~'] := by
  have hall : ∀ k < 0x80, isPlain (UInt8.ofNat k) = true →
      (Char.ofNat k).isAlphanum = true ∨ Char.ofNat k ∈ ['/', '-', '_', '.', '~'] := by decide
  exact hall b.toNat (isPlain_of_lt h).1 (by rwa [UInt8.ofNat_toNat])

theorem hexDigit_mem_upperDigits {n : Nat} (hn : n < 16) : hexDigit n ∈ upperDigits := by
  revert n
  decide

theorem Written.escape_append (h : Written cs) (b : UInt8) : Written (Uri.escape b ++ cs) := by
  have hb : b.toNat < 256 := b.toNat_lt
  rw [Uri.escape]
  split
  · next hplain => exact .plain (isAlphanum_or_mem_of_isPlain hplain) h
  · split
    · exact .plain (.inr List.mem_cons_self) h
    · exact .escape (hexDigit_mem_upperDigits (by omega)) (hexDigit_mem_upperDigits (by omega)) h

theorem written_flatMap_escape (bytes : List UInt8) : Written (bytes.flatMap escape) := by
  induction bytes with
  | nil => exact .nil
  | cons b bytes ih =>
      rw [List.flatMap_cons]
      exact ih.escape_append b

theorem exists_written_eq_ofPath (p : Path) :
    ∃ written, ofPath p = String.ofList (scheme ++ written) ∧ Written written :=
  ⟨_, ofPath_eq p, written_flatMap_escape _⟩

/-! ## Coming back -/

/-- A path that comes back as one with the same steps has nothing in it that means something
else in a uri. -/
theorem of_components_toPath?_ofPath (hp : p.isAbsolute = true)
    (h : (toPath? (ofPath p)).map Path.components = some p.components) :
    '\\' ∉ p.text.toList ∧ ¬ p.HasDrive := by
  rw [toPath?_ofPath, Option.map_some, Option.some.injEq] at h
  constructor
  · intro hback
    obtain ⟨name, hname, hmem⟩ :=
      Path.exists_entry_mem_components hback (by decide) (by decide)
    rw [← h] at hname
    have hread := Path.mem_of_entry_mem_components hname hmem
    rw [String.toList_ofList] at hread
    exact backslash_notMem_dropDriveSeparator p hread
  · intro hdrive
    have hroot : .root ∈ p.components := Path.root_mem_components hp
    rw [← h] at hroot
    have habsolute := Path.isAbsolute_of_root_mem_components hroot
    rw [isAbsolute_dropDriveSeparator hdrive] at habsolute
    cases habsolute

theorem toPath?_ofPath_iff (hp : p.isAbsolute = true) :
    toPath? (ofPath p) = some p ↔ '\\' ∉ p.text.toList ∧ ¬ p.HasDrive := by
  refine ⟨fun h => of_components_toPath?_ofPath hp ?_, fun h => ?_⟩
  · rw [h, Option.map_some]
  · exact toPath?_ofPath_of_isAbsolute hp h.1 h.2

theorem eq_of_ofPath_eq_ofPath (hp : p.isAbsolute = true) (hq : q.isAbsolute = true)
    (hpback : '\\' ∉ p.text.toList) (hqback : '\\' ∉ q.text.toList) (h : ofPath p = ofPath q) :
    p = q := by
  have hseparated := ofPath_eq_ofPath_iff.mp h
  rw [Path.separated_of_isAbsolute hp, Path.separated_of_isAbsolute hq,
    map_separate_of_notMem hpback, map_separate_of_notMem hqback] at hseparated
  exact congrArg Path.mk (String.toList_injective hseparated)

/-- An absolute path comes back from its uri, as the same text or as another one for the same
place, exactly when it has no backslash and does not start as one to a drive. Without
backslashes no other absolute path has its uri. -/
theorem ofPath_round_trip {p : Path} (hp : p.isAbsolute = true) :
    (toPath? (ofPath p) = some p ↔ '\\' ∉ p.text.toList ∧ ¬ p.HasDrive) ∧
    ((toPath? (ofPath p)).map Path.components = some p.components ↔
      '\\' ∉ p.text.toList ∧ ¬ p.HasDrive) ∧
    (∀ q : Path, q.isAbsolute = true → '\\' ∉ p.text.toList → '\\' ∉ q.text.toList →
      ofPath p = ofPath q → p = q) ∧
    ∃ written, ofPath p = String.ofList (scheme ++ written) ∧ Written written := by
  refine ⟨toPath?_ofPath_iff hp, ⟨of_components_toPath?_ofPath hp, fun h => ?_⟩,
    fun q hq hpback hqback => eq_of_ofPath_eq_ofPath hp hq hpback hqback,
    exists_written_eq_ofPath p⟩
  rw [(toPath?_ofPath_iff hp).mpr h, Option.map_some]

/-- A name with a blank and a letter outside ASCII in it. -/
def coffeePath : Path := ⟨String.ofList ['/', 'M', 'y', ' ', 'C', 'a', 'f', 'é']⟩

theorem ofPath_round_trip_coffeePath :
    coffeePath.isAbsolute = true ∧ toPath? (ofPath coffeePath) = some coffeePath := by
  have habsolute : coffeePath.isAbsolute = true := Path.isAbsolute_iff.mpr ⟨_, String.toList_ofList⟩
  have htext : coffeePath.text.toList = ['/', 'M', 'y', ' ', 'C', 'a', 'f', 'é'] :=
    String.toList_ofList
  have hback : '\\' ∉ coffeePath.text.toList := by
    rw [htext]
    decide
  have hdrive : ¬ coffeePath.HasDrive := by
    rintro ⟨d, rest, hchars, -⟩
    rw [htext] at hchars
    exact absurd hchars (by simp)
  exact ⟨habsolute, (ofPath_round_trip habsolute).1.mpr ⟨hback, hdrive⟩⟩

end Uri

end SourceAtlas
