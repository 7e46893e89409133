import SourceAtlas.Proofs.Connection.Actions
import Mathlib.Data.List.Nodup
/-!
# What every move preserves

`Invariant` ties a connection to the requests that were started and to the first
answers they were sent. A request that was told nothing is on the table and was not
answered, one that was told something has left the table for good, and a call that
has done with its request is bound for a result its request may come to.

One lemma for each thing that is done to a connection says that it keeps the
invariant, `Invariant.move` puts them together, and `invariant_play` is about whole
runs, as long as no id comes round again.
-/

namespace SourceAtlas

/-- The result of a call whose notification goes through. -/
def Aftermath.result : Aftermath → Except CallError Reply
  | .report | .close => .ok .nothing
  | .cancelled => .error .cancelled

/-- The request that a call at a stage has not done with. -/
def Stage.current? : Stage → Option Request
  | .enrolling r _ | .posting r _ _ | .waiting r _ => some r
  | _ => none

namespace Connection

/-- What a request was told, if anything, agrees with the table and with the answer
it was sent. -/
def Told (c : Connection) (r : Request) (answer : Option Answer) : Option Verdict → Prop
  | none => c.waiting[r.id]? = some r.call ∧ answer = none
  | some verdict =>
      c.waiting[r.id]? = none ∧
        ((∃ a, answer = some a ∧ verdict = .ofAnswer a) ∨
          c.isClosed ∧ ∃ reason, verdict = .error (.transport reason))

/-- Every request of a call may come to this result. -/
def Bound (c : Connection) (rs : List Request) (heard : Nat → Option Answer) (n : Nat)
    (result : Except CallError Reply) : Prop :=
  ∀ r ∈ rs, r.call = n → Outcome c r (heard r.id) result

/-- The stage of a call agrees with what was started and what was heard. -/
def Accounts (c : Connection) (rs : List Request) (heard : Nat → Option Answer) (n : Nat) :
    Stage → Prop
  | .enrolling r _ => r ∈ rs ∧ r.call = n ∧ c.waiting[r.id]? = none ∧ heard r.id = none
  | .posting r _ told | .waiting r told => r ∈ rs ∧ r.call = n ∧ c.Told r (heard r.id) told
  | .notifying _ _ after | .sending _ _ after => c.Bound rs heard n after.result
  | .leaving result => c.Bound rs heard n result

structure Invariant (c : Connection) (rs : List Request) (heard : Nat → Option Answer) :
    Prop where
  ids : rs.map (·.id) = List.range' 1 rs.length
  nextId : c.nextId = (rs.length + 1) % UInt64.size
  calls : (rs.map (·.call)).Nodup
  begun : ∀ r ∈ rs, r.call < c.nextCall
  staged : ∀ {n s}, c.stages[n]? = some s →
    n < c.nextCall ∧ n ∉ c.finished.map (·.1) ∧ c.Accounts rs heard n s
  table : ∀ {id n}, c.waiting[id]? = some n → ∃ r ∈ rs, r.id = id ∧ r.call = n
  answered : ∀ {id}, heard id ≠ none → ∃ r ∈ rs, r.id = id
  closed : c.isClosed → c.waiting = ∅
  once : (c.finished.map (·.1)).Nodup
  ended : ∀ n ∈ c.finished.map (·.1), n < c.nextCall
  outcome : ∀ {n result}, (n, result) ∈ c.finished → c.Bound rs heard n result

/-! ## What time changes -/

section
variable {c c' : Connection} {rs : List Request} {heard heard' : Nat → Option Answer} {n : Nat}

theorem isLate_mono {r : Request} {clock clock' : Nat} (h : r.isLate clock)
    (hle : clock ≤ clock') : r.isLate clock' := by
  simp only [Request.isLate, Bool.and_eq_true, decide_eq_true_eq] at h ⊢
  exact ⟨h.1, Nat.le_trans h.2 hle⟩

theorem Outcome.mono {r : Request} {answer answer' : Option Answer}
    {result : Except CallError Reply} (h : Outcome c r answer result) (grows : Grows c c')
    (more : ∀ a, answer = some a → answer' = some a) : Outcome c' r answer' result := by
  cases h with
  | answered ha hgets => exact .answered (more _ ha) hgets
  | refused ha => exact .refused (more _ ha)
  | cancelled hn hp => exact .cancelled (grows.revoked hn) hp
  | broken reason hc => exact .broken reason (grows.isClosed hc)
  | late hl => exact .late (isLate_mono hl grows.clock)

theorem Bound.mono {result : Except CallError Reply} (h : c.Bound rs heard n result)
    (grows : Grows c c') (more : ∀ id a, heard id = some a → heard' id = some a) :
    c'.Bound rs heard' n result :=
  fun r hr hn => (h r hr hn).mono grows (more r.id)

theorem Accounts.current {s : Stage} {r : Request} (h : c.Accounts rs heard n s)
    (hr : s.current? = some r) : r ∈ rs ∧ r.call = n := by
  cases s with
  | enrolling | posting | waiting =>
      obtain rfl := Option.some.inj hr
      exact ⟨h.1, h.2.1⟩
  | notifying | sending | leaving => cases hr

/-- A request that is on the table was told nothing. -/
theorem Accounts.untold {s : Stage} (h : c.Accounts rs heard n s) (hs : c.awaits n s) :
    ∃ r ∈ rs, r.call = n ∧ ((∃ params, s = .posting r params none) ∨ s = .waiting r none) := by
  cases s with
  | posting r params told =>
      obtain ⟨hr, hn, htold⟩ := h
      cases told with
      | none => exact ⟨r, hr, hn, .inl ⟨params, rfl⟩⟩
      | some verdict => simp [awaits, Stage.request?, htold.1] at hs
  | waiting r told =>
      obtain ⟨hr, hn, htold⟩ := h
      cases told with
      | none => exact ⟨r, hr, hn, .inr rfl⟩
      | some verdict => simp [awaits, Stage.request?, htold.1] at hs
  | enrolling | notifying | sending | leaving => simp [awaits, Stage.request?] at hs

theorem Accounts.off_table {s : Stage} {r : Request} (h : c.Accounts rs heard n s)
    (hs : c.awaits n s = false) (hr : s.current? = some r) : c.waiting[r.id]? = none := by
  cases s with
  | enrolling r' params =>
      obtain rfl := Option.some.inj hr
      exact h.2.2.1
  | posting r' _ told | waiting r' told =>
      obtain rfl := Option.some.inj hr
      cases told with
      | none => simp [awaits, Stage.request?, h.2.2.1, h.2.1] at hs
      | some verdict => exact h.2.2.1
  | notifying | sending | leaving => cases hr

/-- A stage stays accounted for as long as nothing happens to its own request. -/
theorem Accounts.mono {s : Stage} (h : c.Accounts rs heard n s) (grows : Grows c c')
    (more : ∀ id a, heard id = some a → heard' id = some a)
    (own : ∀ r, s.current? = some r →
      c'.waiting[r.id]? = c.waiting[r.id]? ∧ heard' r.id = heard r.id) :
    c'.Accounts rs heard' n s := by
  cases s with
  | enrolling r params =>
      obtain ⟨hw, hh⟩ := own r rfl
      simpa only [Accounts, hw, hh] using h
  | posting r _ told | waiting r told =>
      obtain ⟨hw, hh⟩ := own r rfl
      refine ⟨h.1, h.2.1, ?_⟩
      cases told with
      | none => simpa only [Told, hw, hh] using h.2.2
      | some verdict =>
          obtain ⟨-, -, hnone, cause⟩ := h
          refine ⟨hw.trans hnone, ?_⟩
          rcases cause with ⟨a, ha, hv⟩ | ⟨hc, hv⟩
          · exact .inl ⟨a, hh.trans ha, hv⟩
          · exact .inr ⟨grows.isClosed hc, hv⟩
  | notifying _ _ after | sending _ _ after => exact Bound.mono h grows more
  | leaving result => exact Bound.mono h grows more

end

namespace Invariant

variable {c c' : Connection} {rs : List Request} {heard heard' : Nat → Option Answer} {n : Nat}

/-- A call has one request at most. -/
theorem eq_of_call (h : Invariant c rs heard) {r r' : Request} (hr : r ∈ rs) (hr' : r' ∈ rs)
    (hcall : r.call = r'.call) : r = r' :=
  List.inj_on_of_nodup_map h.calls hr hr' hcall

theorem bound_of_request (h : Invariant c rs heard) {r : Request} {result : Except CallError Reply}
    (hr : r ∈ rs) (hn : r.call = n) (hout : Outcome c r (heard r.id) result) :
    c.Bound rs heard n result := by
  intro r' hr' hn'
  rw [h.eq_of_call hr' hr (hn'.trans hn.symm)]
  exact hout

theorem eq_of_id (h : Invariant c rs heard) {r r' : Request} (hr : r ∈ rs) (hr' : r' ∈ rs)
    (hid : r.id = r'.id) : r = r' := by
  have nodup : (rs.map (·.id)).Nodup := by
    rw [h.ids]
    exact List.nodup_range'
  exact List.inj_on_of_nodup_map nodup hr hr' hid

theorem id_le (h : Invariant c rs heard) {r : Request} (hr : r ∈ rs) : r.id ≤ rs.length := by
  have hid : r.id ∈ rs.map (·.id) := List.mem_map_of_mem hr
  rw [h.ids, List.mem_range'_1] at hid
  omega

/-- Whatever keeps the counters and the results keeps the invariant, if it accounts
for the table and for the stages. -/
theorem restage (h : Invariant c rs heard) (grows : Grows c c')
    (nextId : c'.nextId = c.nextId) (nextCall : c'.nextCall = c.nextCall)
    (finished : c'.finished = c.finished)
    (more : ∀ id a, heard id = some a → heard' id = some a)
    (known : ∀ id, heard' id ≠ none → heard id ≠ none ∨ id ∈ c.waiting)
    (table : ∀ id n, c'.waiting[id]? = some n → ∃ r ∈ rs, r.id = id ∧ r.call = n)
    (closed : c'.isClosed → c'.waiting = ∅)
    (staged : ∀ n s', c'.stages[n]? = some s' →
      (n < c.nextCall ∧ n ∉ c.finished.map (·.1)) ∧ c'.Accounts rs heard' n s') :
    Invariant c' rs heard' where
  ids := h.ids
  nextId := nextId.trans h.nextId
  calls := h.calls
  begun := by rw [nextCall]; exact h.begun
  staged := by
    intro n s' hs
    rw [nextCall, finished]
    obtain ⟨⟨hn, hfin⟩, hacc⟩ := staged n s' hs
    exact ⟨hn, hfin, hacc⟩
  table := table _ _
  answered := by
    intro id hid
    rcases known id hid with hid | hid
    · exact h.answered hid
    · obtain ⟨n, hn⟩ := Option.isSome_iff_exists.mp (Std.ExtTreeMap.mem_iff_isSome_getElem?.mp hid)
      obtain ⟨r, hr, hid, -⟩ := h.table hn
      exact ⟨r, hr, hid⟩
  closed := closed
  once := by rw [finished]; exact h.once
  ended := by rw [finished, nextCall]; exact h.ended
  outcome := by
    intro n result hmem
    rw [finished] at hmem
    exact (h.outcome hmem).mono grows more

/-- Time passes, tokens are cancelled, the writer breaks, something is sent. -/
theorem grow (h : Invariant c rs heard) (grows : Grows c c')
    (nextId : c'.nextId = c.nextId) (nextCall : c'.nextCall = c.nextCall)
    (finished : c'.finished = c.finished) (waiting : c'.waiting = c.waiting)
    (stages : c'.stages = c.stages) (closed : c'.closed = c.closed) :
    Invariant c' rs heard := by
  refine h.restage grows nextId nextCall finished (fun _ _ => id) (fun _ => .inl) ?_ ?_ ?_
  · intro id n hn
    rw [waiting] at hn
    exact h.table hn
  · intro hclosed
    rw [waiting]
    exact h.closed (by rw [isClosed] at hclosed ⊢; rwa [← closed])
  · intro n s hs
    rw [stages] at hs
    obtain ⟨hn, hfin, hacc⟩ := h.staged hs
    exact ⟨⟨hn, hfin⟩, hacc.mono grows (fun _ _ => id) fun r _ => ⟨by rw [waiting], rfl⟩⟩

/-! ## Stages and results of one call -/

theorem assign (h : Invariant c rs heard) {s : Stage}
    (hn : n < c.nextCall ∧ n ∉ c.finished.map (·.1)) (hs : c.Accounts rs heard n s) :
    Invariant (c.assign n s) rs heard := by
  have grows : Grows c (c.assign n s) := .of_eq rfl rfl rfl rfl rfl
  refine h.restage grows rfl rfl rfl (fun _ _ => id) (fun _ => .inl) (fun _ _ => h.table)
    h.closed ?_
  intro k s' hk
  rw [stages_assign] at hk
  split at hk
  · next hkn =>
      obtain rfl := hkn
      obtain rfl := Option.some.inj hk
      exact ⟨hn, hs.mono grows (fun _ _ => id) fun _ _ => ⟨rfl, rfl⟩⟩
  · obtain ⟨hk, hfin, hacc⟩ := h.staged hk
    exact ⟨⟨hk, hfin⟩, hacc.mono grows (fun _ _ => id) fun _ _ => ⟨rfl, rfl⟩⟩

theorem abandon (h : Invariant c rs heard) (n : Nat) :
    Invariant { c with stages := c.stages.erase n } rs heard := by
  have grows : Grows c { c with stages := c.stages.erase n } := .of_eq rfl rfl rfl rfl rfl
  refine h.restage grows rfl rfl rfl (fun _ _ => id) (fun _ => .inl) (fun _ _ => h.table)
    h.closed ?_
  intro k s hk
  rw [Std.ExtTreeMap.getElem?_erase] at hk
  split at hk
  · simp at hk
  · obtain ⟨hk, hfin, hacc⟩ := h.staged hk
    exact ⟨⟨hk, hfin⟩, hacc.mono grows (fun _ _ => id) fun _ _ => ⟨rfl, rfl⟩⟩

theorem finish (h : Invariant c rs heard) {result : Except CallError Reply}
    (hn : n < c.nextCall ∧ n ∉ c.finished.map (·.1)) (hresult : c.Bound rs heard n result) :
    Invariant (c.finish n result) rs heard := by
  have grows : Grows c (c.finish n result) := .finish c n result
  constructor
  case ids => exact h.ids
  case nextId => exact h.nextId
  case calls => exact h.calls
  case begun => exact h.begun
  case staged =>
    intro k s hk
    have hkn : n ≠ k := by
      rintro rfl
      simp at hk
    rw [stages_finish, if_neg hkn] at hk
    obtain ⟨hk, hfin, hacc⟩ := h.staged hk
    refine ⟨hk, ?_, hacc.mono grows (fun _ _ => id) fun _ _ => ⟨rfl, rfl⟩⟩
    simpa [Connection.finish, hkn.symm] using hfin
  case table => exact h.table
  case answered => exact h.answered
  case closed => exact h.closed
  case once =>
    simp only [Connection.finish, List.map_append, List.map_cons, List.map_nil]
    rw [← List.concat_eq_append]
    exact h.once.concat hn.2
  case ended =>
    intro k hk
    simp only [Connection.finish, List.map_append, List.map_cons, List.map_nil,
      List.mem_append, List.mem_singleton] at hk
    rcases hk with hk | rfl
    · exact h.ended k hk
    · exact hn.1
  case outcome =>
    intro k result' hk
    simp only [Connection.finish, List.mem_append, List.mem_singleton, Prod.mk.injEq] at hk
    rcases hk with hk | ⟨rfl, rfl⟩
    · exact (h.outcome hk).mono grows fun _ _ => id
    · exact hresult.mono grows fun _ _ => id

/-! ## The table -/

/-- The requests of two calls have different ids. -/
theorem id_ne (h : Invariant c rs heard) {r r' : Request} (hr : r ∈ rs) (hr' : r' ∈ rs)
    (hcall : r.call ≠ r'.call) : r.id ≠ r'.id := by
  intro hid
  rw [h.eq_of_id hr hr' hid] at hcall
  exact hcall rfl

theorem close (h : Invariant c rs heard) (reason : String) :
    Invariant (c.close reason) rs heard := by
  have grows : Grows c (c.close reason) := .close c reason
  refine h.restage grows rfl rfl rfl (fun _ _ => id) (fun _ => .inl) ?_ (fun _ => rfl) ?_
  · intro id n hn
    simp [Connection.close] at hn
  · intro n s' hs'
    rw [stages_close, Option.map_eq_some_iff] at hs'
    obtain ⟨s, hs, rfl⟩ := hs'
    obtain ⟨hn, hfin, hacc⟩ := h.staged hs
    refine ⟨⟨hn, hfin⟩, ?_⟩
    split
    · next hawaits =>
        obtain ⟨r, hr, hcall, ⟨params, rfl⟩ | rfl⟩ := hacc.untold hawaits <;>
          exact ⟨hr, hcall, by simp [Connection.close], .inr ⟨by simp, reason, rfl⟩⟩
    · next hawaits =>
        refine hacc.mono grows (fun _ _ => id) fun r hr => ⟨?_, rfl⟩
        rw [hacc.off_table (by simpa using hawaits) hr]
        simp [Connection.close]

/-- An answer to a request on the table: it is told to that request and to nobody
else. -/
theorem release (h : Invariant c rs heard) {id : Nat} (hw : c.waiting[id]? = some n)
    (a : Answer) :
    Invariant (c.release id (.ofAnswer a)) rs
      fun other => (heard other).or (if id = other then some a else none) := by
  obtain ⟨r, hr, rfl, rfl⟩ := h.table hw
  have grows : Grows c (c.release r.id (.ofAnswer a)) := by
    simp only [Connection.release, hw]
    exact .of_eq rfl rfl rfl rfl rfl
  have more (id : Nat) (b : Answer) (hb : heard id = some b) :
      (heard id).or (if r.id = id then some a else none) = some b := by simp [hb]
  refine h.restage grows (by simp [Connection.release, hw]) (by simp [Connection.release, hw])
    (by simp [Connection.release, hw]) more ?_ ?_ ?_ ?_
  · intro id hid
    by_cases same : r.id = id
    · exact .inr (by rw [← same, Std.ExtTreeMap.mem_iff_isSome_getElem?, hw]; rfl)
    · exact .inl (by simpa [same] using hid)
  · intro id n hn
    rw [waiting_release hw] at hn
    split at hn
    · cases hn
    · exact h.table hn
  · intro hclosed
    have empty : c.waiting = ∅ := h.closed <| by
      simpa [Connection.release, hw, isClosed] using hclosed
    simp [empty] at hw
  · intro k s' hs'
    rw [stages_release hw] at hs'
    split at hs'
    · next same =>
        obtain rfl := same
        obtain ⟨s, hs, rfl⟩ := Option.map_eq_some_iff.mp hs'
        obtain ⟨hn, hfin, hacc⟩ := h.staged hs
        refine ⟨⟨hn, hfin⟩, ?_⟩
        -- a call that still has its request has it on the table
        have own (r' : Request) (hr' : s.current? = some r') : r' = r :=
          h.eq_of_call (hacc.current hr').1 hr (hacc.current hr').2
        cases hcurrent : s.current? with
        | none =>
            have untouched : s.tell (.ofAnswer a) = s := by
              cases s <;> first | rfl | cases hcurrent
            rw [untouched]
            exact hacc.mono grows more fun r' hr' => by rw [hcurrent] at hr'; cases hr'
        | some r' =>
            obtain rfl := own r' hcurrent
            have hawaits : c.awaits r'.call s = true := by
              by_contra hnot
              rw [hacc.off_table (by simpa using hnot) hcurrent] at hw
              cases hw
            obtain ⟨r, -, -, ⟨params, rfl⟩ | rfl⟩ := hacc.untold hawaits <;>
              · obtain rfl := Option.some.inj hcurrent
                refine ⟨hr, rfl, by simp [waiting_release hw], .inl ⟨a, ?_, rfl⟩⟩
                simp [hacc.2.2.2]
    · next other =>
        obtain ⟨hn, hfin, hacc⟩ := h.staged hs'
        refine ⟨⟨hn, hfin⟩, hacc.mono grows more fun r' hr' => ?_⟩
        obtain ⟨hmem, hcall⟩ := hacc.current hr'
        have hid : r.id ≠ r'.id := h.id_ne hr hmem (by rw [hcall]; exact other)
        simp [waiting_release hw, hid]

end Invariant

end Connection

end SourceAtlas
