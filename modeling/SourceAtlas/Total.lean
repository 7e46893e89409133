/-!
# Totals

The sum of a measure over a list, for counts and for differences.
-/

namespace SourceAtlas

def total {α : Type} (count : α → Nat) : List α → Nat
  | [] => 0
  | a :: as => count a + total count as

@[simp] theorem total_nil {α : Type} (count : α → Nat) : total count [] = 0 := rfl

@[simp] theorem total_cons {α : Type} (count : α → Nat) (a : α) (as : List α) :
    total count (a :: as) = count a + total count as := rfl

theorem total_append {α : Type} (count : α → Nat) (as bs : List α) :
    total count (as ++ bs) = total count as + total count bs := by
  induction as with
  | nil => simp
  | cons a as ih => simp [ih, Nat.add_assoc]

theorem total_congr {α : Type} {count count' : α → Nat} {as : List α}
    (h : ∀ a ∈ as, count a = count' a) : total count as = total count' as := by
  induction as with
  | nil => rfl
  | cons a as ih =>
      rw [total_cons, total_cons, h a List.mem_cons_self,
        ih fun b hb => h b (List.mem_cons_of_mem a hb)]

theorem total_const {α : Type} (n : Nat) (as : List α) :
    total (fun _ => n) as = as.length * n := by
  induction as with
  | nil => simp
  | cons a as ih => rw [total_cons, ih, List.length_cons, Nat.succ_mul, Nat.add_comm]

theorem total_map {α β : Type} (count : β → Nat) (f : α → β) (as : List α) :
    total count (as.map f) = total (fun a => count (f a)) as := by
  induction as with
  | nil => rfl
  | cons a as ih => rw [List.map_cons, total_cons, total_cons, ih]

theorem total_flatMap {α β : Type} (count : β → Nat) (f : α → List β) (as : List α) :
    total count (as.flatMap f) = total (fun a => total count (f a)) as := by
  induction as with
  | nil => rfl
  | cons a as ih => rw [List.flatMap_cons, total_append, total_cons, ih]

theorem total_perm {α : Type} (count : α → Nat) {as bs : List α} (h : as.Perm bs) :
    total count as = total count bs := by
  induction h with
  | nil => rfl
  | cons a _ ih => rw [total_cons, total_cons, ih]
  | swap a b as => simp only [total_cons, Nat.add_left_comm]
  | trans _ _ ih ih' => exact ih.trans ih'

theorem total_add {α : Type} (count count' : α → Nat) (as : List α) :
    total (fun a => count a + count' a) as = total count as + total count' as := by
  induction as with
  | nil => rfl
  | cons a as ih => simp only [total_cons, ih, Nat.add_add_add_comm]

theorem total_eq_countP {α : Type} (P : α → Bool) (as : List α) :
    total (fun a => if P a then 1 else 0) as = as.countP P := by
  induction as with
  | nil => rfl
  | cons a as ih => rw [total_cons, ih, List.countP_cons, Nat.add_comm]

theorem total_set {α : Type} (count : α → Nat) {as : List α} {i : Nat} {b : α}
    (h : as[i]? = some b) (a : α) :
    total count (as.set i a) + count b = total count as + count a := by
  induction as generalizing i with
  | nil => simp at h
  | cons c cs ih =>
      cases i with
      | zero =>
          obtain rfl : c = b := by simpa using h
          simp [Nat.add_comm, Nat.add_left_comm]
      | succ i =>
          have := ih (i := i) (by simpa using h)
          simp only [List.set_cons_succ, total_cons]
          omega

def balance {α : Type} (difference : α → Int) : List α → Int
  | [] => 0
  | a :: as => difference a + balance difference as

@[simp] theorem balance_nil {α : Type} (difference : α → Int) : balance difference [] = 0 := rfl

@[simp] theorem balance_cons {α : Type} (difference : α → Int) (a : α) (as : List α) :
    balance difference (a :: as) = difference a + balance difference as := rfl

theorem balance_congr {α : Type} {difference difference' : α → Int} {as : List α}
    (h : ∀ a ∈ as, difference a = difference' a) :
    balance difference as = balance difference' as := by
  induction as with
  | nil => rfl
  | cons a as ih =>
      rw [balance_cons, balance_cons, h a List.mem_cons_self,
        ih fun b hb => h b (List.mem_cons_of_mem a hb)]

theorem balance_eq_zero {α : Type} {difference : α → Int} {as : List α}
    (h : ∀ a ∈ as, difference a = 0) : balance difference as = 0 := by
  induction as with
  | nil => rfl
  | cons a as ih =>
      rw [balance_cons, h a List.mem_cons_self, ih fun b hb => h b (List.mem_cons_of_mem a hb)]
      rfl

theorem balance_map {α β : Type} (difference : β → Int) (f : α → β) (as : List α) :
    balance difference (as.map f) = balance (fun a => difference (f a)) as := by
  induction as with
  | nil => rfl
  | cons a as ih => rw [List.map_cons, balance_cons, balance_cons, ih]

theorem balance_sub {α : Type} (out back : α → Nat) (as : List α) :
    balance (fun a => (out a : Int) - back a) as = (total out as : Int) - total back as := by
  induction as with
  | nil => rfl
  | cons a as ih =>
      rw [balance_cons, total_cons, total_cons, ih]
      omega

theorem balance_filter {α : Type} (difference : α → Int) (P : α → Bool) (as : List α) :
    balance difference as =
      balance difference (as.filter P) + balance difference (as.filter fun a => !P a) := by
  induction as with
  | nil => rfl
  | cons a as ih =>
      cases hP : P a <;> simp [hP, ih] <;> omega

end SourceAtlas
