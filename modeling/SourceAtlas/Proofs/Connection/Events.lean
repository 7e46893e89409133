import SourceAtlas.Connection
import SourceAtlas.Proofs.Connection.Interleaving
/-!
# Events are moves

A connection that runs on its own lets every call go on as far as it can after each
event. That is one of the interleavings: `run_eq_play` gives the moves a run is made
of, so what holds of every list of moves holds of every run.
-/

namespace SourceAtlas

namespace Connection

variable {c c' c'' : Connection}

/-- Some moves lead from one connection to another. -/
def Reaches (c c' : Connection) : Prop :=
  ∃ ms, c' = c.play ms

namespace Reaches

theorem refl (c : Connection) : Reaches c c := ⟨[], rfl⟩

theorem trans (h : Reaches c c') (h' : Reaches c' c'') : Reaches c c'' := by
  obtain ⟨ms, rfl⟩ := h
  obtain ⟨ms', rfl⟩ := h'
  exact ⟨ms ++ ms', (play_append c ms ms').symm⟩

theorem move (c : Connection) (m : Move) : Reaches c (c.move m) := ⟨[m], rfl⟩

/-- Something that moves do is done over and over. -/
theorem foldl {α : Type} {f : Connection → α → Connection} (h : ∀ c a, Reaches c (f c a))
    (c : Connection) (as : List α) : Reaches c (as.foldl f c) := by
  induction as generalizing c with
  | nil => exact .refl c
  | cons a as ih => exact (h c a).trans (ih (f c a))

theorem drive (c : Connection) (n : Nat) : Reaches c (c.drive n) := by
  have steps (k : Nat) : Reaches c (Nat.repeat (proceed · n) k c) := by
    induction k with
    | zero => exact .refl c
    | succ k ih => exact ih.trans (.move _ (.proceed n))
  exact steps 6

theorem settle (c : Connection) (first : List Nat) : Reaches c (c.settle first) :=
  .foldl drive c _

theorem readFrames (ended : Bool) (c : Connection) (bs : List UInt8) :
    Reaches c (c.readFrames ended bs).1 := by
  fun_induction Connection.readFrames ended c bs with
  | case1 c bs => exact .move c (.keep bs)
  | case2 c => exact .move c (.stop endOfStream)
  | case3 c _ fault => exact .move c (.stop _)
  | case4 c => exact .move c (.stop malformed)
  | case5 c bs body rest _ incoming _ heard reading last calls eq ih =>
      rw [eq] at ih
      exact (move c (.hear incoming.classify?)).trans ih
  | case6 c bs body rest _ incoming => exact .move c (.hear incoming.classify?)

theorem step (c : Connection) (event : Event) : Reaches c (c.step event) := by
  cases event with
  | start call cancelled =>
      have begun (c : Connection) : Reaches c ((c.start call).settle [c.nextCall]) :=
        (move c (.start call)).trans (.settle _ _)
      cases cancelled with
      | false => exact begun c
      | true => exact (move c (.revoke c.nextCall)).trans (begun _)
  | cancel n =>
      simp only [Connection.step]
      split
      · exact (move c (.revoke n)).trans ((move _ (.withdraw n)).trans (.settle _ _))
      · exact .refl c
  | arrive octets =>
      simp only [Connection.step, advance]
      split
      · exact (readFrames false c _).trans (.settle _ _)
      · exact .refl c
  | endStream =>
      simp only [Connection.step, advance]
      split
      · exact (readFrames true c _).trans (.settle _ _)
      · exact .refl c
  | breakWriter => exact .move c (.turn (some "broken pipe"))
  | elapse seconds =>
      have expired (c : Connection) (ns : List Nat) : Reaches c (ns.foldl expire c) :=
        .foldl (fun c n => move c (.expire n)) c ns
      exact (move c (.elapse seconds)).trans ((expired _ _).trans (.settle _ _))

end Reaches

theorem run_eq_play (events : List Event) : ∃ ms, fresh.run events = fresh.play ms :=
  Reaches.foldl Reaches.step fresh events

end Connection

end SourceAtlas
