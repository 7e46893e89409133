import SourceAtlas.Proofs.Connection.Invariant
import Mathlib.Data.List.Induction
/-!
# The invariant along a run

Each move keeps the invariant: the start of a call, every step of a call, what a
waiting call does about its token or its patience, and what the reader does.
`invariant_play` follows for every list of moves that starts fewer than 2^64
requests, since then the id that comes next was never used before.
-/

namespace SourceAtlas

namespace Connection

variable {c : Connection} {rs : List Request} {heard : Nat → Option Answer} {n : Nat}

namespace Invariant

/-! ## The start of a call -/

/-- The next call has no request yet. -/
theorem newcomer (h : Invariant c rs heard) {r : Request} (hr : r ∈ rs) :
    r.call ≠ c.nextCall :=
  Nat.ne_of_lt (h.begun r hr)

theorem free (h : Invariant c rs heard) : c.nextCall ∉ c.finished.map (·.1) :=
  fun hmem => Nat.lt_irrefl _ (h.ended _ hmem)

/-- A call takes its number. -/
theorem count (h : Invariant c rs heard) :
    Invariant { c with nextCall := c.nextCall + 1 } rs heard where
  ids := h.ids
  nextId := h.nextId
  calls := h.calls
  begun := fun r hr => Nat.lt_succ_of_lt (h.begun r hr)
  staged := by
    intro n s hs
    obtain ⟨hn, hfin, hacc⟩ := h.staged hs
    refine ⟨Nat.lt_succ_of_lt hn, hfin, ?_⟩
    exact hacc.mono (.count c c.nextId) (fun _ _ => id) fun _ _ => ⟨rfl, rfl⟩
  table := h.table
  answered := h.answered
  closed := h.closed
  once := h.once
  ended := fun n hn => Nat.lt_succ_of_lt (h.ended n hn)
  outcome := fun hmem => (h.outcome hmem).mono (.count c c.nextId) fun _ _ => id

theorem bound_concat {result : Except CallError Reply} {r : Request}
    (h : c.Bound rs heard n result) (hr : r.call ≠ n) : c.Bound (rs ++ [r]) heard n result := by
  intro r' hr' hn
  rcases List.mem_append.mp hr' with hr' | hr'
  · exact h r' hr' hn
  · rw [List.mem_singleton.mp hr'] at hn
    exact absurd hn hr

theorem accounts_concat {s : Stage} {r : Request} (h : c.Accounts rs heard n s)
    (hr : r.call ≠ n) : c.Accounts (rs ++ [r]) heard n s := by
  cases s with
  | enrolling | posting | waiting => exact ⟨List.mem_append_left _ h.1, h.2⟩
  | notifying | sending | leaving => exact bound_concat h hr

/-- A call takes its number and its request takes the next id, which no request had
before. -/
theorem draw (h : Invariant c rs heard) (few : rs.length + 1 < UInt64.size)
    (purpose : Purpose) (method : String) :
    Invariant { c with nextCall := c.nextCall + 1, nextId := (c.nextId + 1) % UInt64.size }
      (rs ++ [c.nextRequest purpose method]) heard := by
  have grows := Grows.count c ((c.nextId + 1) % UInt64.size)
  have next : c.nextId = rs.length + 1 := by rw [h.nextId, Nat.mod_eq_of_lt few]
  constructor
  case ids =>
    rw [List.map_append, h.ids, List.length_append]
    simp [nextRequest, next, List.range'_concat, Nat.add_comm]
  case nextId => simp [next]
  case calls =>
    rw [List.map_append, List.map_cons, List.map_nil, ← List.concat_eq_append]
    refine h.calls.concat fun hmem => ?_
    obtain ⟨r, hr, hcall⟩ := List.mem_map.mp hmem
    exact absurd hcall (Nat.ne_of_lt (h.begun r hr))
  case begun =>
    intro r hr
    rcases List.mem_append.mp hr with hr | hr
    · exact Nat.lt_succ_of_lt (h.begun r hr)
    · rw [List.mem_singleton.mp hr]
      exact Nat.lt_succ_self _
  case staged =>
    intro n s hs
    obtain ⟨hn, hfin, hacc⟩ := h.staged hs
    refine ⟨Nat.lt_succ_of_lt hn, hfin, accounts_concat ?_ (Nat.ne_of_lt hn).symm⟩
    exact hacc.mono grows (fun _ _ => id) fun _ _ => ⟨rfl, rfl⟩
  case table =>
    intro id n hn
    obtain ⟨r, hr, hid⟩ := h.table hn
    exact ⟨r, List.mem_append_left _ hr, hid⟩
  case answered =>
    intro id hid
    obtain ⟨r, hr, hid⟩ := h.answered hid
    exact ⟨r, List.mem_append_left _ hr, hid⟩
  case closed => exact h.closed
  case once => exact h.once
  case ended => exact h.count.ended
  case outcome =>
    intro n result hmem
    refine bound_concat ((h.outcome hmem).mono grows fun _ _ => id) ?_
    exact (Nat.ne_of_lt (h.ended n (List.mem_map_of_mem hmem))).symm

theorem start (h : Invariant c rs heard) (call : Call)
    (few : (rs ++ (c.started? (.start call)).toList).length < UInt64.size) :
    Invariant (c.start call) (rs ++ (c.started? (.start call)).toList) heard := by
  have last : c.nextCall < c.nextCall + 1 := Nat.lt_succ_self _
  cases herrand : call.errand with
  | tell method params =>
      simp only [started?, herrand, Option.toList_none, List.append_nil, Connection.start]
      exact h.count.assign ⟨last, h.free⟩ fun r hr hn => absurd hn (h.newcomer hr)
  | ask purpose method params =>
      cases hrefusal : c.refusal? c.nextCall purpose with
      | some result =>
          simp only [started?, herrand, hrefusal, Option.toList_none, List.append_nil,
            Connection.start]
          exact h.count.finish ⟨last, h.free⟩ fun r hr hn => absurd hn (h.newcomer hr)
      | none =>
          simp only [started?, herrand, hrefusal, Option.toList_some, List.length_append,
            List.length_singleton, Connection.start] at few ⊢
          refine (h.draw few purpose method).assign ⟨last, h.free⟩ ⟨by simp, rfl, ?_, ?_⟩
          -- no request before had this id
          all_goals
            have next : c.nextId = rs.length + 1 := by rw [h.nextId, Nat.mod_eq_of_lt few]
            rw [← Option.not_isSome_iff_eq_none, Option.isSome_iff_exists]
          · rintro ⟨k, hk⟩
            obtain ⟨r, hr, hid, -⟩ := h.table hk
            have le := h.id_le hr
            simp only [nextRequest] at hid
            omega
          · rintro ⟨a, ha⟩
            obtain ⟨r, hr, hid⟩ := h.answered (by rw [ha]; simp)
            have le := h.id_le hr
            simp only [nextRequest] at hid
            omega

/-! ## The steps of a call -/

theorem send (h : Invariant c rs heard) (message : Json) :
    Invariant { c with sent := c.sent ++ [message] } rs heard :=
  h.grow (.of_eq rfl rfl rfl rfl rfl) rfl rfl rfl rfl rfl rfl

theorem enrol (h : Invariant c rs heard) (hopen : c.closed = none) {r : Request} {params : Json}
    (hs : c.stages[r.call]? = some (.enrolling r params)) :
    Invariant (c.enrol r.call r params) rs heard := by
  obtain ⟨hn, hfin, hr, -, hw, hh⟩ := h.staged hs
  have grows : Grows c (c.enrol r.call r params) := by
    simp only [Connection.enrol, release_of_none hw]
    exact .of_eq rfl rfl rfl rfl rfl
  have waiting (id : Nat) : (c.enrol r.call r params).waiting[id]? =
      if r.id = id then some r.call else c.waiting[id]? := by
    simp [Connection.enrol, release_of_none hw, Connection.assign,
      Std.ExtTreeMap.getElem?_insert]
  refine h.restage grows (by simp [Connection.enrol, release_of_none hw, Connection.assign])
    (by simp [Connection.enrol, release_of_none hw, Connection.assign])
    (by simp [Connection.enrol, release_of_none hw, Connection.assign])
    (fun _ _ => id) (fun _ => .inl) ?_ ?_ ?_
  · intro id n hid
    rw [waiting] at hid
    split at hid
    · next same => exact ⟨r, hr, same, Option.some.inj hid⟩
    · exact h.table hid
  · intro hclosed
    simp [Connection.enrol, release_of_none hw, Connection.assign, isClosed, hopen] at hclosed
  · intro k s hk
    simp only [Connection.enrol, release_of_none hw, stages_assign] at hk
    split at hk
    · next same =>
        obtain rfl := same
        obtain rfl := Option.some.inj hk
        exact ⟨⟨hn, hfin⟩, hr, rfl, by simp [waiting], hh⟩
    · next other =>
        obtain ⟨hk, hfin, hacc⟩ := h.staged hk
        refine ⟨⟨hk, hfin⟩, hacc.mono grows (fun _ _ => id) fun r' hr' => ?_⟩
        obtain ⟨hmem, hcall⟩ := hacc.current hr'
        have hid : r.id ≠ r'.id := h.id_ne hr hmem (by rw [hcall]; exact other)
        simp [waiting, hid]

theorem conclude (h : Invariant c rs heard) (hn : n < c.nextCall ∧ n ∉ c.finished.map (·.1))
    {after : Aftermath} {outcome : Except CallError Unit}
    (hafter : c.Bound rs heard n after.result)
    (failed : ∀ e, outcome = .error e → c.isClosed ∧ ∃ reason, e = .transport reason) :
    Invariant (c.conclude n after outcome) rs heard := by
  have told (happy : after.result = .ok .nothing) :
      c.Bound rs heard n (outcome.map fun _ => Reply.nothing) := by
    cases outcome with
    | ok u => rw [happy] at hafter; exact hafter
    | error e =>
        obtain ⟨hclosed, reason, rfl⟩ := failed e rfl
        exact fun r _ _ => .broken reason hclosed
  cases after with
  | report => exact h.finish hn (told rfl)
  | cancelled => exact h.finish hn hafter
  | close => exact h.assign hn (told rfl)

/-- A call that was told the result of its request is bound for it, or goes on to its
last notification. -/
theorem resume (h : Invariant c rs heard) (hn : n < c.nextCall ∧ n ∉ c.finished.map (·.1))
    {r : Request} (hr : r ∈ rs) (hcall : r.call = n) {result : Json}
    (ha : heard r.id = some (.ok result)) : Invariant (c.resume r n result) rs heard := by
  have bound : c.Bound rs heard n (r.decode result) :=
    h.bound_of_request hr hcall (.answered ha (r.gets_decode result))
  cases hpurpose : r.purpose with
  | handshake | shutdown =>
      have happy : r.decode result = .ok .nothing := by simp [Request.decode, hpurpose]
      rw [happy] at bound
      simp only [Connection.resume, hpurpose]
      exact h.assign hn bound
  | outline | references | raw =>
      simp only [Connection.resume, hpurpose]
      exact h.finish hn bound

theorem perform (h : Invariant c rs heard) {s : Stage} (hs : c.stages[n]? = some s) :
    Invariant (c.perform n s) rs heard := by
  obtain ⟨hlt, hfin, hacc⟩ := h.staged hs
  have hn : n < c.nextCall ∧ n ∉ c.finished.map (·.1) := ⟨hlt, hfin⟩
  cases s with
  | enrolling r params =>
      cases hclosed : c.closed with
      | some reason =>
          simp only [Connection.perform, hclosed]
          exact h.finish hn fun r _ _ => .broken reason (by simp [isClosed, hclosed])
      | none =>
          obtain rfl := hacc.2.1
          simp only [Connection.perform, hclosed]
          exact h.enrol hclosed hs
  | posting r params told =>
      rcases c.writeOrClose_cases (Wire.request r.id r.method params) with
        written | ⟨reason, fault, failed⟩
      · simp only [Connection.perform, written]
        exact (h.send _).assign hn hacc
      · simp only [Connection.perform, failed]
        exact (h.close reason).finish hn fun r _ _ => .broken fault (by simp)
  | waiting r told =>
      obtain ⟨hr, hcall, htold⟩ := hacc
      cases told with
      | none => exact h
      | some verdict =>
          obtain ⟨-, ⟨a, ha, rfl⟩ | ⟨hclosed, reason, rfl⟩⟩ := htold
          · cases a with
            | ok result => exact h.resume hn hr hcall ha
            | error e => exact h.finish hn (h.bound_of_request hr hcall (.refused ha))
          · exact h.finish hn fun r _ _ => .broken reason hclosed
  | notifying method params after =>
      cases hclosed : c.closed with
      | some reason =>
          simp only [Connection.perform, hclosed]
          refine h.conclude hn hacc fun e he => ?_
          exact ⟨by simp [isClosed, hclosed], reason, (Except.error.inj he).symm⟩
      | none =>
          simp only [Connection.perform, hclosed]
          exact h.assign hn hacc
  | sending method params after =>
      have bound : c.Bound rs heard n after.result := hacc
      rcases c.writeOrClose_cases (Wire.notification method params) with
        written | ⟨reason, fault, failed⟩
      · simp only [Connection.perform, written]
        exact (h.send _).conclude hn
          (bound.mono (.of_eq rfl rfl rfl rfl rfl) fun _ _ => id) fun e he => by cases he
      · simp only [Connection.perform, failed]
        have grows : Grows c (c.close reason) := .close c reason
        refine (h.close reason).conclude hn (bound.mono grows fun _ _ => id) fun e he => ?_
        exact ⟨by simp, fault, (Except.error.inj he).symm⟩
  | leaving result =>
      have bound : c.Bound rs heard n result := hacc
      have grows : Grows c (c.close shutDown) := .close c shutDown
      exact (h.close shutDown).finish hn (bound.mono grows fun _ _ => id)

theorem proceed (h : Invariant c rs heard) (n : Nat) : Invariant (c.proceed n) rs heard := by
  cases hs : c.stages[n]? with
  | none => simpa only [Connection.proceed, hs] using h
  | some s => simpa only [Connection.proceed, hs] using h.perform hs

/-- A request that is given up leaves the table, and its call is bound to be
cancelled. -/
theorem withdraw (h : Invariant c rs heard) (n : Nat) : Invariant (c.withdraw n) rs heard := by
  unfold Connection.withdraw
  split
  case h_2 => exact h
  case h_1 r told hs =>
    split
    case isFalse => exact h
    case isTrue hcancel =>
      obtain ⟨hn, hfin, hr, hcall, -⟩ := h.staged hs
      refine h.restage (.of_eq rfl rfl rfl rfl rfl) rfl rfl rfl (fun _ _ => id) (fun _ => .inl) ?_ ?_ ?_
      · intro id k hid
        simp only [Connection.assign, Std.ExtTreeMap.getElem?_erase] at hid
        split at hid
        · cases hid
        · exact h.table hid
      · intro hclosed
        simp [Connection.assign, h.closed hclosed]
      · intro k s hk
        rw [stages_assign] at hk
        split at hk
        · next same =>
            obtain rfl := same
            obtain rfl := Option.some.inj hk
            exact ⟨⟨hn, hfin⟩, (h.bound_of_request hr hcall
              (.cancelled (by rw [hcall]; exact hcancel.1) hcancel.2)).mono
                (.of_eq rfl rfl rfl rfl rfl) fun _ _ => id⟩
        · next other =>
            obtain ⟨hk, hfin, hacc⟩ := h.staged hk
            refine ⟨⟨hk, hfin⟩, hacc.mono (.of_eq rfl rfl rfl rfl rfl)
              (fun _ _ => id) fun r' hr' => ?_⟩
            obtain ⟨hmem, hcall'⟩ := hacc.current hr'
            have hid : r.id ≠ r'.id := h.id_ne hr hmem (by rw [hcall, hcall']; exact other)
            simp [Connection.assign, Std.ExtTreeMap.getElem?_erase, hid]

theorem expire (h : Invariant c rs heard) (n : Nat) : Invariant (c.expire n) rs heard := by
  unfold Connection.expire
  split
  case h_2 => exact h
  case h_1 s hs =>
    split
    case isFalse => exact h
    case isTrue hlate =>
      obtain ⟨hn, hfin, hacc⟩ := h.staged hs
      refine h.assign ⟨hn, hfin⟩ ?_
      cases s with
      | posting r _ _ | waiting r _ => exact h.bound_of_request hacc.1 hacc.2.1 (.late hlate)
      | enrolling | notifying | sending | leaving => cases hlate

/-! ## The reader -/

theorem stop (h : Invariant c rs heard) (reason : String) :
    Invariant (c.stop reason) rs heard := by
  unfold Connection.stop
  split
  · have quiet : Invariant { c with reading := false, unread := [] } rs heard :=
      h.grow (.of_eq rfl rfl rfl rfl rfl) rfl rfl rfl rfl rfl rfl
    exact quiet.close reason
  · exact h

/-- What the reader takes in, and the answer it brings if it brings one. -/
theorem hear (h : Invariant c rs heard) (message : Option Message) :
    Invariant (c.hear message) rs
      fun id => (heard id).or (c.answer? id (.hear message)) := by
  have nothing (silent : ∀ id, c.answer? id (.hear message) = none) :
      (fun id => (heard id).or (c.answer? id (.hear message))) = heard := by
    funext id
    rw [silent, Option.or_none]
  by_cases hreading : c.reading
  case neg =>
    rw [nothing fun id => by cases message with
      | none => rfl
      | some m => cases m <;> simp [answer?, hreading]]
    unfold Connection.hear
    rw [if_neg hreading]
    exact h
  simp only [Connection.hear, hreading, if_true]
  split
  case h_1 id a =>
    cases hw : c.waiting[id]? with
    | none =>
        rw [nothing fun other => ?_, release_of_none hw]
        · exact h
        · simp only [answer?, hreading, true_and, ite_eq_right_iff]
          rintro ⟨rfl, hmem⟩
          rw [Std.ExtTreeMap.mem_iff_isSome_getElem?, hw] at hmem
          cases hmem
    | some n =>
        have same : (fun other => (heard other).or
              (c.answer? other (.hear (some (.response id a))))) =
            fun other => (heard other).or (if id = other then some a else none) := by
          funext other
          by_cases hid : id = other
          · have hmem : id ∈ c.waiting := by
              rw [Std.ExtTreeMap.mem_iff_isSome_getElem?, hw]
              rfl
            simp [answer?, hreading, ← hid, hmem]
          · simp [answer?, hid]
        rw [same]
        exact h.release hw a
  case h_2 id method =>
    rw [nothing fun _ => rfl]
    cases hfault : c.fault with
    | none => simpa only [write, hfault] using h.send _
    | some fault => simpa only [write, hfault] using h.stop _
  all_goals
    rw [nothing fun _ => rfl]
    exact h

/-! ## Moves and runs -/

theorem move (h : Invariant c rs heard) (m : Move)
    (few : (rs ++ (c.started? m).toList).length < UInt64.size) :
    Invariant (c.move m) (rs ++ (c.started? m).toList)
      fun id => (heard id).or (c.answer? id m) := by
  -- most moves start no request and bring no answer
  have silent (same : Invariant (c.move m) rs heard) (hs : c.started? m = none)
      (ha : ∀ id, c.answer? id m = none) :
      Invariant (c.move m) (rs ++ (c.started? m).toList)
        fun id => (heard id).or (c.answer? id m) := by
    simpa only [hs, ha, Option.toList_none, List.append_nil, Option.or_none] using same
  cases m with
  | start call =>
      have started : Invariant (c.move (.start call)) _ heard := h.start call few
      simpa only [answer?, Option.or_none] using started
  | hear message =>
      have listened : Invariant (c.move (.hear message)) rs _ := h.hear message
      simpa only [started?, Option.toList_none, List.append_nil] using listened
  | proceed n => exact silent (h.proceed n) rfl fun _ => rfl
  | withdraw n => exact silent (h.withdraw n) rfl fun _ => rfl
  | expire n => exact silent (h.expire n) rfl fun _ => rfl
  | abandon n => exact silent (h.abandon n) rfl fun _ => rfl
  | stop reason => exact silent (h.stop reason) rfl fun _ => rfl
  | revoke n =>
      refine silent (h.grow ?_ rfl rfl rfl rfl rfl rfl) rfl fun _ => rfl
      exact ⟨List.subset_cons_self n _, Nat.le_refl _, Nat.le_refl _, id, List.prefix_refl _⟩
  | elapse seconds =>
      refine silent (h.grow ?_ rfl rfl rfl rfl rfl rfl) rfl fun _ => rfl
      exact ⟨List.Subset.refl _, Nat.le_add_right _ seconds, Nat.le_refl _, id, List.prefix_refl _⟩
  | keep octets | turn fault =>
      refine silent (h.grow ?_ rfl rfl rfl rfl rfl rfl) rfl fun _ => rfl
      exact (.of_eq rfl rfl rfl rfl rfl)

theorem fresh : Invariant Connection.fresh [] fun _ => none := by
  constructor <;> simp [Connection.fresh, isClosed]

end Invariant

/-- Along every run of fewer than 2^64 requests the connection agrees with what was
started and what was heard. -/
theorem invariant_play (ms : List Move) (few : (fresh.requests ms).length < UInt64.size) :
    Invariant (fresh.play ms) (fresh.requests ms) fun id => fresh.firstAnswer? id ms := by
  induction ms using List.reverseRecOn with
  | nil => exact .fresh
  | append_singleton ms m ih =>
      rw [requests_concat] at few ⊢
      have before := ih (by rw [List.length_append] at few; omega)
      have after := before.move m few
      simpa only [play_concat, firstAnswer?_concat] using after

end Connection

end SourceAtlas
