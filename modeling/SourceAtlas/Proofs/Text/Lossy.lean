import Mathlib.Data.List.Forall2
import Mathlib.Data.List.Induction
import SourceAtlas.Proofs.Text.Utf8
/-!
# Octets that are shown

A text that was encoded is shown as it was (`decodeLossy_encode`). Of octets that are no text the
parts that are characters stay, and each other part becomes one replacement character: an octet
that no character starts with, or as much of the beginning of a character as there is (`Broken`).
That leaves one way to show them (`Shows`), and lossy reading finds it (`shows_iff`).

The first octet of a character asks for the others by their ranges. What fits these ranges is
what the characters with that first octet go on with (`encodes_cons_iff`), and what fits some of
them, from the first one on, is the beginning of such a character (`begins_cons_iff`).
-/

namespace SourceAtlas

namespace Utf8

variable {b : UInt8} {bits : Nat} {more : List (UInt8 × UInt8)} {bytes part rest : List UInt8}

/-! ## Octets that a first one asks for -/

/-- An octet is in a range of octets. -/
def Fits (range : UInt8 × UInt8) (b : UInt8) : Prop := range.1 ≤ b ∧ b ≤ range.2

theorem Fits.bounds {lo hi : UInt8} (h : Fits (lo, hi) b) :
    lo.toNat ≤ b.toNat ∧ b.toNat ≤ hi.toNat :=
  ⟨UInt8.le_iff_toNat_le.mp h.1, UInt8.le_iff_toNat_le.mp h.2⟩

theorem fits_ofNat {lo hi : UInt8} {n : Nat} (hlo : lo.toNat ≤ n) (hhi : n ≤ hi.toNat) :
    Fits (lo, hi) (UInt8.ofNat n) := by
  have hn : (UInt8.ofNat n).toNat = n := UInt8.toNat_ofNat_of_lt' (hhi.trans_lt hi.toNat_lt)
  exact ⟨UInt8.le_iff_toNat_le.mpr (hlo.trans hn.ge), UInt8.le_iff_toNat_le.mpr (hn.le.trans hhi)⟩

theorem fits_tail (n : Nat) : Fits (0x80, 0xBF) (UInt8.ofNat (n % 64 + 0x80)) :=
  fits_ofNat (show 0x80 ≤ _ by omega) (show _ ≤ 0xBF by omega)

theorem toNat_tail (n : Nat) : (UInt8.ofNat (n % 64 + 0x80)).toNat = n % 64 + 0x80 :=
  UInt8.toNat_ofNat_of_lt' (show _ < 256 by omega)

theorem tails_of_fits (h : List.Forall₂ Fits more bytes)
    (hmore : ∀ range ∈ more, 0x80 ≤ range.1.toNat ∧ range.2.toNat ≤ 0xBF) :
    ∀ b ∈ bytes, 0x80 ≤ b.toNat ∧ b.toNat ≤ 0xBF := by
  induction h with
  | nil => exact nofun
  | cons hb _ ih =>
      obtain ⟨hrange, hmore⟩ := List.forall_mem_cons.mp hmore
      refine List.forall_mem_cons.mpr ⟨?_, ih hmore⟩
      exact ⟨hrange.1.trans hb.bounds.1, hb.bounds.2.trans hrange.2⟩

theorem tail_of_lead? (h : lead? b = some (bits, more)) :
    ∀ range ∈ more, 0x80 ≤ range.1.toNat ∧ range.2.toNat ≤ 0xBF := by
  simp only [lead?] at h
  split_ifs at h <;> obtain ⟨-, rfl⟩ := Prod.mk.inj (Option.some.inj h) <;> simp

theorem toNat_eq_of_lead? (h : lead? b = some (bits, more)) :
    b.toNat = leadOf more.length + bits := by
  simp only [lead?] at h
  generalize b.toNat = n at h ⊢
  split_ifs at h <;> obtain ⟨rfl, rfl⟩ := Prod.mk.inj (Option.some.inj h) <;>
    simp only [List.length_nil, List.length_cons, leadOf] <;> omega

theorem fits_first (h : lead? b = some (bits, more)) : ∀ range ∈ more, Fits range range.1 := by
  simp only [lead?] at h
  split_ifs at h <;> obtain ⟨-, rfl⟩ := Prod.mk.inj (Option.some.inj h) <;> simp [Fits]

theorem fits_firsts (h : ∀ range ∈ more, Fits range range.1) :
    List.Forall₂ Fits more (more.map Prod.fst) := by
  induction more with
  | nil => exact .nil
  | cons range more ih =>
      obtain ⟨hrange, hmore⟩ := List.forall_mem_cons.mp h
      exact .cons hrange (ih hmore)

/-! ## Scalar values -/

/-- The scalar value that the bits of a first octet and the octets behind it make up. -/
def join (bits : Nat) (bytes : List UInt8) : Nat :=
  bytes.foldl (fun acc b => acc * 64 + (b.toNat - 0x80)) bits

@[simp] theorem join_nil (bits : Nat) : join bits [] = bits := rfl

theorem join_cons (bits : Nat) (b : UInt8) (bytes : List UInt8) :
    join bits (b :: bytes) = join (bits * 64 + (b.toNat - 0x80)) bytes :=
  List.foldl_cons ..

theorem join_concat (bits : Nat) (bytes : List UInt8) (b : UInt8) :
    join bits (bytes ++ [b]) = join bits bytes * 64 + (b.toNat - 0x80) := by
  simp only [join, List.foldl_append, List.foldl_cons, List.foldl_nil]

theorem octets_join (lead bits : Nat) (bytes : List UInt8)
    (h : ∀ b ∈ bytes, 0x80 ≤ b.toNat ∧ b.toNat ≤ 0xBF) :
    octets lead bytes.length (join bits bytes) = UInt8.ofNat (lead + bits) :: bytes := by
  induction bytes using List.reverseRecOn with
  | nil => rfl
  | append_singleton bytes b ih =>
      obtain ⟨hbytes, hb⟩ := List.forall_mem_append.mp h
      obtain ⟨hlo, hhi⟩ := List.forall_mem_singleton.mp hb
      have hdiv : (join bits bytes * 64 + (b.toNat - 0x80)) / 64 = join bits bytes := by omega
      have hmod : 0x80 + (join bits bytes * 64 + (b.toNat - 0x80)) % 64 = b.toNat := by omega
      rw [List.length_append, List.length_singleton, join_concat, octets, hdiv, hmod,
        ih hbytes, UInt8.ofNat_toNat, List.cons_append]

theorem scalar_three {b₁ b₂ : UInt8} (h₁ : Fits (0x80, 0xBF) b₁) (h₂ : Fits (0x80, 0xBF) b₂)
    (hbits : bits < 16) (hlo : bits = 0 → 0xA0 ≤ b₁.toNat)
    (hhi : bits = 0x0D → b₁.toNat ≤ 0x9F) :
    (join bits [b₁, b₂]).isValidChar ∧ width (join bits [b₁, b₂]) = 2 := by
  have h₁ : 0x80 ≤ b₁.toNat ∧ b₁.toNat ≤ 0xBF := h₁.bounds
  have h₂ : 0x80 ≤ b₂.toNat ∧ b₂.toNat ≤ 0xBF := h₂.bounds
  rw [join_cons, join_cons, join_nil, width, if_neg (by omega), if_neg (by omega),
    if_pos (by omega), Nat.isValidChar]
  exact ⟨by omega, rfl⟩

theorem scalar_four {b₁ b₂ b₃ : UInt8} (h₁ : Fits (0x80, 0xBF) b₁) (h₂ : Fits (0x80, 0xBF) b₂)
    (h₃ : Fits (0x80, 0xBF) b₃) (hbits : bits < 5) (hlo : bits = 0 → 0x90 ≤ b₁.toNat)
    (hhi : bits = 4 → b₁.toNat ≤ 0x8F) :
    (join bits [b₁, b₂, b₃]).isValidChar ∧ width (join bits [b₁, b₂, b₃]) = 3 := by
  have h₁ : 0x80 ≤ b₁.toNat ∧ b₁.toNat ≤ 0xBF := h₁.bounds
  have h₂ : 0x80 ≤ b₂.toNat ∧ b₂.toNat ≤ 0xBF := h₂.bounds
  have h₃ : 0x80 ≤ b₃.toNat ∧ b₃.toNat ≤ 0xBF := h₃.bounds
  rw [join_cons, join_cons, join_cons, join_nil, width, if_neg (by omega), if_neg (by omega),
    if_neg (by omega), Nat.isValidChar]
  exact ⟨by omega, rfl⟩

/-- Octets that fit what the first one asks for make up a scalar value of the form that the first
one announces. -/
theorem scalar_of_lead? (h : lead? b = some (bits, more)) (hbytes : List.Forall₂ Fits more bytes) :
    (join bits bytes).isValidChar ∧ width (join bits bytes) = more.length := by
  have htail : ∀ x ∈ bytes, Fits (0x80, 0xBF) x := fun x hx =>
    have hx := tails_of_fits hbytes (tail_of_lead? h) x hx
    ⟨UInt8.le_iff_toNat_le.mpr hx.1, UInt8.le_iff_toNat_le.mpr hx.2⟩
  simp only [lead?] at h
  generalize b.toNat = n at h
  split_ifs at h <;> obtain ⟨rfl, rfl⟩ := Prod.mk.inj (Option.some.inj h) <;>
    simp only [List.forall₂_nil_left_iff, List.forall₂_cons_left_iff] at hbytes
  · obtain rfl := hbytes
    rw [join_nil, width, if_pos (by omega)]
    exact ⟨.inl (by omega), rfl⟩
  · obtain ⟨b₁, _, h₁, rfl, rfl⟩ := hbytes
    have h₁ : 0x80 ≤ b₁.toNat ∧ b₁.toNat ≤ 0xBF := h₁.bounds
    rw [join_cons, join_nil, width, if_neg (by omega), if_pos (by omega)]
    exact ⟨.inl (by omega), rfl⟩
  -- three octets: the second one must not leave room for fewer, nor reach the surrogates
  · obtain ⟨b₁, _, h₁, ⟨b₂, _, h₂, rfl, rfl⟩, rfl⟩ := hbytes
    exact scalar_three (htail b₁ (by simp)) h₂ (by omega) (fun _ => h₁.bounds.1) (by omega)
  · obtain ⟨b₁, _, h₁, ⟨b₂, _, h₂, rfl, rfl⟩, rfl⟩ := hbytes
    exact scalar_three (htail b₁ (by simp)) h₂ (by omega) (by omega) (fun _ => h₁.bounds.2)
  · obtain ⟨b₁, _, h₁, ⟨b₂, _, h₂, rfl, rfl⟩, rfl⟩ := hbytes
    exact scalar_three h₁ h₂ (by omega) (by omega) (by omega)
  -- four octets: nor may they go beyond the last scalar value
  · obtain ⟨b₁, _, h₁, ⟨b₂, _, h₂, ⟨b₃, _, h₃, rfl, rfl⟩, rfl⟩, rfl⟩ := hbytes
    exact scalar_four (htail b₁ (by simp)) h₂ h₃ (by omega) (fun _ => h₁.bounds.1) (by omega)
  · obtain ⟨b₁, _, h₁, ⟨b₂, _, h₂, ⟨b₃, _, h₃, rfl, rfl⟩, rfl⟩, rfl⟩ := hbytes
    exact scalar_four (htail b₁ (by simp)) h₂ h₃ (by omega) (by omega) (fun _ => h₁.bounds.2)
  · obtain ⟨b₁, _, h₁, ⟨b₂, _, h₂, ⟨b₃, _, h₃, rfl, rfl⟩, rfl⟩, rfl⟩ := hbytes
    exact scalar_four h₁ h₂ h₃ (by omega) (by omega) (by omega)

/-- Octets in the ranges that the first one asks for are those of a character. -/
theorem exists_char (h : lead? b = some (bits, more)) (hbytes : List.Forall₂ Fits more bytes) :
    ∃ c, String.utf8EncodeChar c = b :: bytes := by
  obtain ⟨hvalid, hwidth⟩ := scalar_of_lead? h hbytes
  have htail := tails_of_fits hbytes (tail_of_lead? h)
  refine ⟨Char.ofNatAux _ hvalid, ?_⟩
  have hval : (Char.ofNatAux _ hvalid).val.toNat = join bits bytes := rfl
  rw [utf8EncodeChar_eq_octets, hval, hwidth, hbytes.length_eq, octets_join _ _ _ htail,
    ← hbytes.length_eq, ← toNat_eq_of_lead? h, UInt8.ofNat_toNat]

theorem lead?_three {k n : Nat} (hk : k < 16) (hn : n < 64) (hlo : k = 0 → 0x20 ≤ n)
    (hhi : k = 0x0D → n < 0x20) : ∃ range : UInt8 × UInt8,
      lead? (UInt8.ofNat (k + 0xE0)) = some (k, [range, (0x80, 0xBF)]) ∧
        Fits range (UInt8.ofNat (n + 0x80)) := by
  have hlead : (UInt8.ofNat (k + 0xE0)).toNat = k + 0xE0 :=
    UInt8.toNat_ofNat_of_lt' (show _ < 256 by omega)
  rw [lead?, hlead, if_neg (by omega), if_neg (by omega)]
  by_cases hzero : k = 0
  · rw [if_pos (by omega), hzero]
    exact ⟨_, rfl, fits_ofNat (show 0xA0 ≤ _ by omega) (show _ ≤ 0xBF by omega)⟩
  rw [if_neg (by omega)]
  by_cases hlast : k = 0x0D
  · rw [if_pos (by omega), hlast]
    exact ⟨_, rfl, fits_ofNat (show 0x80 ≤ _ by omega) (show _ ≤ 0x9F by omega)⟩
  · rw [if_neg (by omega), if_pos (by omega), Nat.add_sub_cancel]
    exact ⟨_, rfl, fits_ofNat (show 0x80 ≤ _ by omega) (show _ ≤ 0xBF by omega)⟩

theorem lead?_four {k n : Nat} (hk : k < 5) (hn : n < 64) (hlo : k = 0 → 0x10 ≤ n)
    (hhi : k = 4 → n < 0x10) : ∃ range : UInt8 × UInt8,
      lead? (UInt8.ofNat (k + 0xF0)) = some (k, [range, (0x80, 0xBF), (0x80, 0xBF)]) ∧
        Fits range (UInt8.ofNat (n + 0x80)) := by
  have hlead : (UInt8.ofNat (k + 0xF0)).toNat = k + 0xF0 :=
    UInt8.toNat_ofNat_of_lt' (show _ < 256 by omega)
  rw [lead?, hlead, if_neg (by omega), if_neg (by omega), if_neg (by omega), if_neg (by omega),
    if_neg (by omega)]
  by_cases hzero : k = 0
  · rw [if_pos (by omega), hzero]
    exact ⟨_, rfl, fits_ofNat (show 0x90 ≤ _ by omega) (show _ ≤ 0xBF by omega)⟩
  rw [if_neg (by omega)]
  by_cases hlast : k = 4
  · rw [if_pos (by omega), hlast]
    exact ⟨_, rfl, fits_ofNat (show 0x80 ≤ _ by omega) (show _ ≤ 0x8F by omega)⟩
  · rw [if_neg (by omega), if_pos (by omega), Nat.add_sub_cancel]
    exact ⟨_, rfl, fits_ofNat (show 0x80 ≤ _ by omega) (show _ ≤ 0xBF by omega)⟩

/-- Every character starts with an octet that asks for the others and for no more. -/
theorem exists_lead? (c : Char) : ∃ b bits more bytes, String.utf8EncodeChar c = b :: bytes ∧
    lead? b = some (bits, more) ∧ List.Forall₂ Fits more bytes ∧ join bits bytes = c.toNat := by
  have hlt : c.val.toNat < 0x110000 := scalar_lt c
  have hvalid := c.valid
  rw [Char.toNat, String.utf8EncodeChar]
  simp only [UInt32.isValidChar, Nat.isValidChar] at hvalid
  generalize c.val.toNat = v at hlt hvalid
  split_ifs with h₁ h₂ h₃
  · have hlead : (UInt8.ofNat v).toNat = v := UInt8.toNat_ofNat_of_lt' (show _ < 256 by omega)
    refine ⟨_, v, [], [], rfl, ?_, .nil, rfl⟩
    rw [lead?, hlead, if_pos (by omega)]
  · have hlead : (UInt8.ofNat (v / 64 % 32 + 0xC0)).toNat = v / 64 + 0xC0 := by
      rw [UInt8.toNat_ofNat_of_lt' (show _ < 256 by omega)]
      omega
    refine ⟨_, v / 64, [(0x80, 0xBF)], _, rfl, ?_, .cons (fits_tail v) .nil, ?_⟩
    · rw [lead?, hlead, if_neg (by omega), if_pos (by omega), Nat.add_sub_cancel]
    · rw [join_cons, join_nil, toNat_tail]
      omega
  · obtain ⟨range, hlead, hfits⟩ := lead?_three (n := v / 64 % 64) (k := v / 4096 % 16)
      (by omega) (by omega) (by omega) (by omega)
    refine ⟨_, _, _, _, rfl, hlead, .cons hfits (.cons (fits_tail v) .nil), ?_⟩
    rw [join_cons, join_cons, join_nil, toNat_tail, toNat_tail]
    omega
  · obtain ⟨range, hlead, hfits⟩ := lead?_four (n := v / 4096 % 64) (k := v / 262144 % 8)
      (by omega) (by omega) (by omega) (by omega)
    have htail := List.Forall₂.cons (fits_tail (v / 64)) (.cons (fits_tail v) .nil)
    refine ⟨_, _, _, _, rfl, hlead, .cons hfits htail, ?_⟩
    rw [join_cons, join_cons, join_cons, join_nil, toNat_tail, toNat_tail, toNat_tail]
    omega

/-! ## Beginnings of characters -/

/-- Some octets are the first ones of a character. -/
def Begins (bytes : List UInt8) : Prop := ∃ c, bytes <+: String.utf8EncodeChar c

theorem begins_singleton_iff : Begins [b] ↔ ∃ bits more, lead? b = some (bits, more) := by
  constructor
  · rintro ⟨c, hc⟩
    obtain ⟨b', bits, more, bytes, heq, hlead, -⟩ := exists_lead? c
    rw [heq, List.cons_prefix_cons] at hc
    exact ⟨bits, more, hc.1 ▸ hlead⟩
  · rintro ⟨bits, more, hlead⟩
    obtain ⟨c, hc⟩ := exists_char hlead (fits_firsts (fits_first hlead))
    exact ⟨c, hc ▸ List.cons_prefix_cons.mpr ⟨rfl, List.nil_prefix⟩⟩

theorem begins_cons_iff (hlead : lead? b = some (bits, more)) :
    Begins (b :: part) ↔ ∃ done later, more = done ++ later ∧ List.Forall₂ Fits done part := by
  constructor
  · rintro ⟨c, hc⟩
    obtain ⟨b', bits', more', bytes, heq, hlead', hfits, -⟩ := exists_lead? c
    obtain ⟨rfl, hpart⟩ := List.cons_prefix_cons.mp (heq ▸ hc)
    cases hlead.symm.trans hlead'
    refine ⟨more.take part.length, more.drop part.length, (List.take_append_drop _ _).symm, ?_⟩
    rw [List.prefix_iff_eq_take.mp hpart, List.length_take,
      Nat.min_eq_left hpart.length_le]
    exact List.forall₂_take _ hfits
  · rintro ⟨done, later, rfl, hpart⟩
    have hlater := fits_firsts fun range hrange =>
      fits_first hlead range (List.mem_append_right done hrange)
    obtain ⟨c, hc⟩ := exists_char hlead (List.rel_append hpart hlater)
    exact ⟨c, hc ▸ List.cons_prefix_cons.mpr ⟨rfl, List.prefix_append _ _⟩⟩

theorem encodes_cons_iff (hlead : lead? b = some (bits, more)) :
    (∃ c, String.utf8EncodeChar c = b :: part) ↔ List.Forall₂ Fits more part := by
  refine ⟨fun ⟨c, hc⟩ => ?_, exists_char hlead⟩
  obtain ⟨b', bits', more', bytes, heq, hlead', hfits, -⟩ := exists_lead? c
  obtain ⟨rfl, rfl⟩ := List.cons.inj (heq.symm.trans hc)
  cases hlead.symm.trans hlead'
  exact hfits

/-! ## Following a first octet -/

theorem follow_of_fits (bits : Nat) (h : List.Forall₂ Fits more part) (rest : List UInt8) :
    follow bits more (part ++ rest) = (some (join bits part), rest) := by
  induction h generalizing bits with
  | nil => cases rest <;> rfl
  | cons hb _ ih => rw [List.cons_append, follow, if_pos (by simpa [Fits] using hb), ih, join_cons]

theorem follow_of_not_fits (bits : Nat) {done later : List (UInt8 × UInt8)} {next : UInt8 × UInt8}
    (h : List.Forall₂ Fits done part) (hrest : ∀ b, rest.head? = some b → ¬ Fits next b) :
    follow bits (done ++ next :: later) (part ++ rest) = (none, rest) := by
  induction h generalizing bits with
  | nil =>
      cases rest with
      | nil => rfl
      | cons b rest =>
          have hb := hrest b rfl
          rw [List.nil_append, List.nil_append, follow, if_neg (by simpa [Fits] using hb)]
  | cons hb _ ih =>
      rw [List.cons_append, List.cons_append, follow, if_pos (by simpa [Fits] using hb), ih]

/-- Octets fit as far as they are asked for, or up to the first one that does not. -/
theorem fits_cases (more : List (UInt8 × UInt8)) (bytes : List UInt8) :
    (∃ part rest, bytes = part ++ rest ∧ List.Forall₂ Fits more part) ∨
      ∃ done next later part rest, more = done ++ next :: later ∧ bytes = part ++ rest ∧
        List.Forall₂ Fits done part ∧ ∀ b, rest.head? = some b → ¬ Fits next b := by
  induction more generalizing bytes with
  | nil => exact .inl ⟨[], bytes, rfl, .nil⟩
  | cons range more ih =>
      cases bytes with
      | nil => exact .inr ⟨[], range, more, [], [], rfl, rfl, .nil, nofun⟩
      | cons b bytes =>
          by_cases hb : Fits range b
          · rcases ih bytes with ⟨part, rest, rfl, hpart⟩ |
              ⟨done, next, later, part, rest, rfl, rfl, hpart, hrest⟩
            · exact .inl ⟨b :: part, rest, rfl, .cons hb hpart⟩
            · exact .inr ⟨range :: done, next, later, b :: part, rest, rfl, rfl, .cons hb hpart,
                hrest⟩
          · refine .inr ⟨[], range, more, [], b :: bytes, rfl, rfl, .nil, ?_⟩
            rintro _ ⟨⟩
            exact hb

/-! ## Lossy reading -/

theorem decodeLossyChars_of_none (h : lead? b = none) (bytes : List UInt8) :
    decodeLossyChars (b :: bytes) = replacement :: decodeLossyChars bytes := by
  rw [decodeLossyChars, h]

theorem decodeLossyChars_of_some (h : lead? b = some (bits, more)) {n : Option Nat}
    (hfollow : follow bits more bytes = (n, rest)) :
    decodeLossyChars (b :: bytes) =
      (n.map Char.ofNat).getD replacement :: decodeLossyChars rest := by
  rw [decodeLossyChars, h]
  dsimp only
  rw [hfollow]
  cases n <;> rfl

/-- A character is read as it was written, whatever follows it. -/
theorem decodeLossyChars_utf8EncodeChar_append (c : Char) (bytes : List UInt8) :
    decodeLossyChars (String.utf8EncodeChar c ++ bytes) = c :: decodeLossyChars bytes := by
  obtain ⟨b, bits, more, part, heq, hlead, hfits, hjoin⟩ := exists_lead? c
  rw [heq, List.cons_append, decodeLossyChars_of_some hlead (follow_of_fits bits hfits bytes),
    hjoin, Option.map_some, Option.getD_some, Char.ofNat_toNat]

theorem decodeLossy_encode (text : String) : decodeLossy (encode text) = text := by
  obtain ⟨cs, rfl⟩ : ∃ cs, text = String.ofList cs := ⟨text.toList, text.ofList_toList.symm⟩
  rw [decodeLossy]
  congr 1
  induction cs with
  | nil => rw [encode_eq_nil_iff.mpr rfl, decodeLossyChars]
  | cons c cs ih => rw [encode_ofList_cons, decodeLossyChars_utf8EncodeChar_append, ih]

/-- Octets in front of others that are no text: one that no character starts with, or as much of
the beginning of a character as there is. -/
structure Broken (part rest : List UInt8) : Prop where
  begins : (∃ b, part = [b] ∧ ¬ Begins [b]) ∨ part ≠ [] ∧ Begins part
  incomplete : ∀ c, String.utf8EncodeChar c ≠ part
  longest : ∀ b, rest.head? = some b → ¬ Begins (part ++ [b])

/-- Octets as they are shown: characters as they were written, and a replacement character for
each part that is no text. -/
inductive Shows : List UInt8 → List Char → Prop where
  | nil : Shows [] []
  | char {bytes : List UInt8} {cs : List Char} (c : Char) : Shows bytes cs →
      Shows (String.utf8EncodeChar c ++ bytes) (c :: cs)
  | broken {part bytes : List UInt8} {cs : List Char} : Broken part bytes → Shows bytes cs →
      Shows (part ++ bytes) (replacement :: cs)

theorem decodeLossyChars_of_broken (h : Broken part rest) :
    decodeLossyChars (part ++ rest) = replacement :: decodeLossyChars rest := by
  rcases h.begins with ⟨b, rfl, hb⟩ | ⟨hne, hbegins⟩
  · refine decodeLossyChars_of_none (Option.eq_none_iff_forall_ne_some.mpr ?_) rest
    rintro ⟨bits, more⟩ hlead
    exact hb (begins_singleton_iff.mpr ⟨bits, more, hlead⟩)
  · obtain ⟨b, part, rfl⟩ := List.exists_cons_of_ne_nil hne
    obtain ⟨bits, more, hlead⟩ := begins_singleton_iff.mp
      (hbegins.imp fun c hc => (List.prefix_append [b] part).trans hc)
    obtain ⟨done, later, rfl, hpart⟩ := (begins_cons_iff hlead).mp hbegins
    cases later with
    | nil =>
        rw [List.append_nil] at hlead
        obtain ⟨c, hc⟩ := (encodes_cons_iff hlead).mpr hpart
        exact absurd hc (h.incomplete c)
    | cons next later =>
        have hrest : ∀ x, rest.head? = some x → ¬ Fits next x := by
          intro x hx hfits
          refine h.longest x hx ((begins_cons_iff hlead).mpr ⟨done ++ [next], later, ?_, ?_⟩)
          · rw [List.append_assoc, List.singleton_append]
          · exact List.rel_append hpart (.cons hfits .nil)
        rw [List.cons_append,
          decodeLossyChars_of_some hlead (follow_of_not_fits bits hpart hrest)]
        rfl

/-- In front there is a character or a part that is none. -/
theorem exists_broken (b : UInt8) (bytes : List UInt8) :
    (∃ c rest, b :: bytes = String.utf8EncodeChar c ++ rest) ∨
      ∃ part rest, b :: bytes = part ++ rest ∧ part ≠ [] ∧ Broken part rest := by
  by_cases hb : Begins [b]
  · obtain ⟨bits, more, hlead⟩ := begins_singleton_iff.mp hb
    rcases fits_cases more bytes with ⟨part, rest, rfl, hpart⟩ |
      ⟨done, next, later, part, rest, rfl, rfl, hpart, hrest⟩
    · obtain ⟨c, hc⟩ := (encodes_cons_iff hlead).mpr hpart
      exact .inl ⟨c, rest, by rw [hc, List.cons_append]⟩
    · have hne := List.cons_ne_nil b part
      refine .inr ⟨b :: part, rest, rfl, hne, .inr ⟨hne, ?_⟩, fun c hc => ?_,
        fun x hx hbegins => ?_⟩
      · exact (begins_cons_iff hlead).mpr ⟨done, _, rfl, hpart⟩
      · have hlength := ((encodes_cons_iff hlead).mp ⟨c, hc⟩).length_eq
        rw [← hpart.length_eq, List.length_append, List.length_cons] at hlength
        omega
      · obtain ⟨done', later', heq, hfits⟩ := (begins_cons_iff hlead).mp hbegins
        have hlength : (done ++ [next]).length = done'.length := by
          rw [hfits.length_eq]
          simp [hpart.length_eq]
        rw [← List.singleton_append, ← List.append_assoc] at heq
        obtain rfl := List.append_inj_left heq hlength
        have hlast := List.forall₂_drop_append _ part [x] hfits
        rw [List.drop_left' hpart.length_eq, List.forall₂_cons] at hlast
        exact hrest x hx hlast.1
  · refine .inr ⟨[b], bytes, rfl, List.cons_ne_nil b [], .inl ⟨b, rfl, hb⟩, fun c hc => ?_,
      fun x _ hbegins => ?_⟩
    · exact hb ⟨c, hc ▸ List.prefix_rfl⟩
    · exact hb (hbegins.imp fun c hc => (List.prefix_append [b] [x]).trans hc)

theorem shows_decodeLossyChars (bytes : List UInt8) : Shows bytes (decodeLossyChars bytes) := by
  induction hn : bytes.length using Nat.strong_induction_on generalizing bytes with
  | _ n ih =>
      subst hn
      cases bytes with
      | nil =>
          rw [decodeLossyChars]
          exact .nil
      | cons b bytes =>
          rcases exists_broken b bytes with ⟨c, rest, heq⟩ | ⟨part, rest, heq, hne, hbroken⟩
          · rw [heq, decodeLossyChars_utf8EncodeChar_append]
            refine .char c (ih _ ?_ rest rfl)
            rw [heq, List.length_append]
            exact Nat.lt_add_of_pos_left (List.length_pos_of_ne_nil String.utf8EncodeChar_ne_nil)
          · rw [heq, decodeLossyChars_of_broken hbroken]
            refine .broken hbroken (ih _ ?_ rest rfl)
            rw [heq, List.length_append]
            exact Nat.lt_add_of_pos_left (List.length_pos_of_ne_nil hne)

/-- Lossy reading is what octets are shown as, and they are shown in one way only. -/
theorem shows_iff {cs : List Char} :
    Shows bytes cs ↔ decodeLossyChars bytes = cs := by
  constructor
  · intro h
    induction h with
    | nil => rw [decodeLossyChars]
    | char c _ ih => rw [decodeLossyChars_utf8EncodeChar_append, ih]
    | broken hbroken _ ih => rw [decodeLossyChars_of_broken hbroken, ih]
  · rintro rfl
    exact shows_decodeLossyChars bytes

theorem shows_toList_iff {text : String} : Shows bytes text.toList ↔ decodeLossy bytes = text := by
  rw [shows_iff, decodeLossy]
  constructor
  · intro h
    rw [h, String.ofList_toList]
  · rintro rfl
    rw [String.toList_ofList]

end Utf8

end SourceAtlas
