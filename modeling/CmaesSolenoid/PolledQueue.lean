import CmaesSolenoid.InputLoop

/-!
# A loop that polls a queue

What arrives between two polls is put at the end of the queue, and a poll that finds the
queue not empty takes its first element for the next round of the loop. Such a loop does
what the loop does on the elements in the order of their arrival, whenever they arrive.
-/

namespace CmaesSolenoid.PolledQueue
open InputLoop

universe u v w

variable {α : Type u} {σ : Type v} {ρ : Type w}

/-- One poll, with what has arrived since the last one. -/
def poll (step : σ → α → Flow σ ρ) (s : List α × σ) (arrived : List α) :
    Flow (List α × σ) (ρ × List α) :=
  match s.1 ++ arrived with
  | [] => .again ([], s.2)
  | x :: queue =>
    match step s.2 x with
    | .again t => .again (queue, t)
    | .ret r => .ret (r, queue)

variable {step : σ → α → Flow σ ρ} {queue arrived : List α} {s t : σ} {r : ρ} {x : α}

theorem poll_empty (h : queue ++ arrived = []) : poll step (queue, s) arrived = .again ([], s) := by
  unfold poll
  rw [h]

theorem poll_again (h : queue ++ arrived = x :: xs) (hx : step s x = .again t) :
    poll step (queue, s) arrived = .again (xs, t) := by
  unfold poll
  rw [h]
  dsimp only
  rw [hx]

theorem poll_ret (h : queue ++ arrived = x :: xs) (hx : step s x = .ret r) :
    poll step (queue, s) arrived = .ret (r, xs) := by
  unfold poll
  rw [h]
  dsimp only
  rw [hx]

/-- What the polling loop returns, the loop returns on all that arrives. -/
theorem run_of_poll {polls rest : List (List α)} {queue' : List α}
    (h : run (poll step) (queue, s) polls = some ((r, queue'), rest)) :
    run step s (queue ++ polls.flatten) = some (r, queue' ++ rest.flatten) := by
  induction polls generalizing queue s with
  | nil => cases h
  | cons arrived polls ih =>
    rw [List.flatten_cons, ← List.append_assoc]
    cases hq : queue ++ arrived with
    | nil =>
      rw [run_again (poll_empty hq)] at h
      exact ih h
    | cons x xs =>
      rw [List.cons_append]
      cases hx : step s x with
      | again t =>
        rw [run_again (poll_again hq hx)] at h
        rw [run_again hx]
        exact ih h
      | ret r' =>
        rw [run_ret (poll_ret hq hx)] at h
        obtain ⟨hr, rfl⟩ := Prod.mk.inj (Option.some.inj h)
        obtain ⟨rfl, rfl⟩ := Prod.mk.inj hr
        exact run_ret hx _

theorem poll_silent {xs : List α} (h : run step s queue = some (r, xs)) {n : ℕ}
    (hn : queue.length ≤ n) :
    ∃ out, run (poll step) (queue, s) (List.replicate n []) = some out ∧ out.1.1 = r := by
  induction queue generalizing s n with
  | nil => cases h
  | cons x queue ih =>
    obtain ⟨m, rfl⟩ := Nat.exists_eq_succ_of_ne_zero (Nat.ne_of_gt (Nat.zero_lt_of_lt hn))
    have hq : x :: queue ++ [] = x :: queue := List.append_nil _
    rw [List.replicate_succ]
    cases hx : step s x with
    | again t =>
      rw [run_again hx] at h
      rw [run_again (poll_again hq hx)]
      exact ih h (Nat.le_of_succ_le_succ hn)
    | ret r' =>
      rw [run_ret hx] at h
      obtain ⟨rfl, -⟩ := Prod.mk.inj (Option.some.inj h)
      exact ⟨_, run_ret (poll_ret hq hx) _, rfl⟩

/-- What the loop returns on all that arrives, the polling loop returns after enough polls. -/
theorem poll_of_run {polls : List (List α)} {xs : List α}
    (h : run step s (queue ++ polls.flatten) = some (r, xs)) {n : ℕ}
    (hn : (queue ++ polls.flatten).length ≤ n) :
    ∃ out, run (poll step) (queue, s) (polls ++ List.replicate n []) = some out ∧ out.1.1 = r := by
  induction polls generalizing queue s with
  | nil =>
    rw [List.flatten_nil, List.append_nil] at h hn
    exact poll_silent h hn
  | cons arrived polls ih =>
    rw [List.flatten_cons, ← List.append_assoc] at h hn
    rw [List.cons_append]
    cases hq : queue ++ arrived with
    | nil =>
      rw [hq] at h hn
      rw [run_again (poll_empty hq)]
      exact ih h hn
    | cons x xs =>
      rw [hq, List.cons_append] at h hn
      cases hx : step s x with
      | again t =>
        rw [run_again hx] at h
        rw [run_again (poll_again hq hx)]
        rw [List.length_cons] at hn
        exact ih h (by omega)
      | ret r' =>
        rw [run_ret hx] at h
        obtain ⟨rfl, -⟩ := Prod.mk.inj (Option.some.inj h)
        exact ⟨_, run_ret (poll_ret hq hx) _, rfl⟩

end CmaesSolenoid.PolledQueue
