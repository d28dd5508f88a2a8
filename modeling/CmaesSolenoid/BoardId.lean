import CmaesSolenoid.InputLoop
import CmaesSolenoid.PopenCmd

/-!
# `get_board_id`

The board is asked for its id up to three times. The answer is looked up in `retBuf`, which
`popen_cmd` leaves as it was when `popen` fails, and the status of `popen_cmd` is ignored.
-/

namespace CmaesSolenoid.Canakit
open LineBuffer Ascii CsvReader InputLoop

inductive CommType
  | canakit
  | digi

def needle : Str := [73, 68, 58, 32]

/-- The text in a buffer that is closed behind `strncpy` of `n` characters. -/
def strncpy (src : Str) (n : ℕ) : Str := cString (src.take n)

structure BoardState where
  retcnt : ℕ
  retBuf : Str

/-- The value returned, the text behind the pointer `id` if it is not null, and `retBuf`. -/
structure BoardReply where
  ret : ℤ
  id : Option Str
  retBuf : Str

def boardRound (id : Str) (s : BoardState) (p : Popen) : Flow BoardState BoardReply :=
  let retBuf := (popenCmd s.retBuf p).2
  match strstr retBuf needle with
  | none =>
    if s.retcnt + 1 < 3 then .again ⟨s.retcnt + 1, retBuf⟩ else .ret ⟨0, some id, retBuf⟩
  | some ptr => .ret ⟨1, some (strncpy (ptr.drop 4) 2), retBuf⟩

/-- `get_board_id`, given how the calls of `popen_cmd` turn out, with those it does not make. -/
def getBoardId (currentComm : CommType) (id : Option Str) (retBuf : Str) (popens : List Popen) :
    Option (BoardReply × List Popen) :=
  match currentComm, id with
  | .digi, id => some (⟨0, id, retBuf⟩, popens)
  | .canakit, none => some (⟨0, none, retBuf⟩, popens)
  | .canakit, some id => run (boardRound id) ⟨0, retBuf⟩ popens

/-- The up to two characters behind the first `ID: ` of a text. -/
def boardId (text : Str) : Option Str := (seek needle text).map fun ptr => (ptr.drop 4).take 2

def Popen.output? : Popen → Option Str
  | .failed => none
  | .ran output _ _ => some output

def printedId (p : Popen) : Option Str := p.output?.bind boardId

def heardId (p : Popen) : Option Str := p.output?.bind fun output => boardId (heard output)

/-- The id is reported exactly if one of these commands has printed one, and it is the first. -/
structure Reports (used : List Popen) (reply : BoardReply) : Prop where
  ret : reply.ret = 1 ↔ ∃ p ∈ used, ∃ output, p.output? = some output ∧ needle <:+: output
  id : ∀ text, used.findSome? printedId = some text → reply.id = some text

def attempts (popens : List Popen) : List Popen :=
  upTo (fun p => (heardId p).isSome) 1 popens

theorem printed_iff (used : List Popen) :
    (∃ p ∈ used, ∃ output, p.output? = some output ∧ needle <:+: output) ↔
      (used.findSome? printedId).isSome := by
  have hone (p : Popen) : (∃ output, p.output? = some output ∧ needle <:+: output) ↔
      (printedId p).isSome := by
    unfold printedId boardId
    cases p with
    | failed => simp [Popen.output?]
    | ran output status fits => simp [Popen.output?, seek_isSome_iff]
  simp only [hone, List.isSome_findSome?, List.any_eq_true]

structure Tells (seen : Option Str) (reply : BoardReply) : Prop where
  ret : reply.ret = 1 ↔ seen.isSome
  id : ∀ text, seen = some text → reply.id = some text

theorem Tells.reports_iff {used : List Popen} {reply : BoardReply} {seen : Option Str}
    (h : Tells seen reply) : Reports used reply ↔ used.findSome? printedId = seen := by
  constructor
  · rintro ⟨hret, hid⟩
    rw [printed_iff, h.ret] at hret
    cases hseen : seen with
    | none =>
      rw [hseen] at hret
      simpa using hret
    | some text =>
      rw [hseen] at hret
      obtain ⟨other, hother⟩ := Option.isSome_iff_exists.mp (hret.mp rfl)
      rw [hother, ← h.id text hseen, hid other hother]
  · rintro rfl
    exact ⟨by rw [printed_iff, h.ret], h.id⟩

theorem strncpy_eq_take {src : Str} (h : nul ∉ src) (n : ℕ) : strncpy src n = src.take n :=
  cString_eq_self fun hmem => h (List.mem_of_mem_take hmem)

theorem boardRound_eq (id : Str) (s : BoardState) (p : Popen) :
    boardRound id s p =
      match boardId (cString (popenCmd s.retBuf p).2) with
      | some text => .ret ⟨1, some text, (popenCmd s.retBuf p).2⟩
      | none =>
        if s.retcnt + 1 < 3 then .again ⟨s.retcnt + 1, (popenCmd s.retBuf p).2⟩
        else .ret ⟨0, some id, (popenCmd s.retBuf p).2⟩ := by
  unfold boardRound boardId strstr
  dsimp only
  cases hseek : seek needle (cString (popenCmd s.retBuf p).2) with
  | none => simp only [Option.map_none]
  | some ptr =>
    have hnul : nul ∉ ptr.drop 4 := fun hmem =>
      nul_notMem_cString _ ((seek_isSuffix hseek).subset (List.mem_of_mem_drop hmem))
    simp only [Option.map_some, strncpy_eq_take hnul]

/-- It is the id that the command was heard to print, if nothing else was left there. -/
theorem boardId_retBuf {retBuf : Str} {p : Popen}
    (h : p = .failed → boardId (cString retBuf) = none) :
    boardId (cString (popenCmd retBuf p).2) = heardId p := by
  cases p with
  | failed => exact h rfl
  | ran output status fits =>
    change boardId (cString (retBufAfter output _)) = boardId (heard output)
    rw [retBufAfter_end, cString_eq_self (nul_notMem_heard output)]

theorem run_boardRound_heard (id : Str) (s : BoardState) {p : Popen} (ps : List Popen)
    (hstale : p = .failed → boardId (cString s.retBuf) = none) {text : Str}
    (hheard : heardId p = some text) :
    ∃ reply, run (boardRound id) s (p :: ps) = some (reply, ps) ∧ attempts (p :: ps) = [p] ∧
      Tells ((p :: ps).findSome? heardId) reply := by
  have hround := boardRound_eq id s p
  rw [boardId_retBuf hstale, hheard] at hround
  refine ⟨_, run_ret hround ps, ?_, ?_⟩
  · simp [attempts, upTo, hheard]
  · rw [List.findSome?_cons, hheard]
    exact ⟨by simp, fun _ htext => htext⟩

/-- The loop tells the first id that it hears and makes no attempt after it. -/
theorem run_boardRound (id : Str) (s : BoardState) (p : Popen) (ps : List Popen)
    (hcnt : s.retcnt + (p :: ps).length = 3)
    (hstale : p = .failed → boardId (cString s.retBuf) = none) :
    ∃ reply rest, run (boardRound id) s (p :: ps) = some (reply, rest) ∧
      p :: ps = attempts (p :: ps) ++ rest ∧ Tells ((p :: ps).findSome? heardId) reply := by
  induction ps generalizing s p with
  | nil =>
    cases hheard : heardId p with
    | some text =>
      obtain ⟨reply, hrun, hused, htells⟩ := run_boardRound_heard id s [] hstale hheard
      exact ⟨reply, [], hrun, by rw [hused]; rfl, htells⟩
    | none =>
      have hlast : ¬ s.retcnt + 1 < 3 := by
        rw [List.length_singleton] at hcnt
        omega
      have hround := boardRound_eq id s p
      rw [boardId_retBuf hstale, hheard] at hround
      refine ⟨_, [], run_ret (hround.trans (if_neg hlast)) [], ?_, ?_⟩
      · simp [attempts, upTo]
      · rw [List.findSome?_cons, hheard]
        exact ⟨by simp, fun _ htext => by cases htext⟩
  | cons q qs ih =>
    cases hheard : heardId p with
    | some text =>
      obtain ⟨reply, hrun, hused, htells⟩ := run_boardRound_heard id s (q :: qs) hstale hheard
      exact ⟨reply, q :: qs, hrun, by rw [hused]; rfl, htells⟩
    | none =>
      have hmore : s.retcnt + 1 < 3 := by
        rw [List.length_cons, List.length_cons] at hcnt
        omega
      have hclean := (boardId_retBuf hstale).trans hheard
      have hround := boardRound_eq id s p
      rw [hclean] at hround
      obtain ⟨reply, rest, hrun, hused, htells⟩ :=
        ih ⟨s.retcnt + 1, (popenCmd s.retBuf p).2⟩ q
          (by rw [List.length_cons] at hcnt; dsimp only; omega) fun _ => hclean
      refine ⟨reply, rest, (run_again (hround.trans (if_pos hmore)) _).trans hrun, ?_, ?_⟩
      · rw [attempts, upTo, hheard]
        exact congrArg (p :: ·) hused
      · rw [List.findSome?_cons, hheard]
        exact htells

/-- An id that was left in `retBuf` is told when the first `popen` fails. -/
theorem run_boardRound_stale (id : Str) {s : BoardState} (ps : List Popen) {text : Str}
    (hstale : boardId (cString s.retBuf) = some text) :
    ∃ reply, run (boardRound id) s (.failed :: ps) = some (reply, ps) ∧
      Tells (some text) reply := by
  have hround := boardRound_eq id s .failed
  rw [show (popenCmd s.retBuf .failed).2 = s.retBuf from rfl, hstale] at hround
  exact ⟨_, run_ret hround ps, by simp, fun _ htext => htext⟩

theorem findSome?_attempts (popens : List Popen) :
    (attempts popens).findSome? heardId = popens.findSome? heardId :=
  findSome?_upTo heardId popens

/-- The report is right exactly if nothing is asked, or `retBuf` holds no id where the first
`popen` fails, and what is heard of the attempts has the id that they have printed. -/
theorem reports_boardId_iff (currentComm : CommType) (id : Option Str) (retBuf : Str)
    (p₁ p₂ p₃ : Popen) :
    ∃ reply used rest, [p₁, p₂, p₃] = used ++ rest ∧
      getBoardId currentComm id retBuf [p₁, p₂, p₃] = some (reply, rest) ∧
      (Reports used reply ↔
        currentComm = .digi ∨ id = none ∨
          ((p₁ = .failed → boardId (cString retBuf) = none) ∧
            (attempts [p₁, p₂, p₃]).findSome? printedId =
              (attempts [p₁, p₂, p₃]).findSome? heardId)) := by
  have hunasked (reply : BoardReply) (hret : reply.ret = 0) : Reports [] reply :=
    ⟨by simp [hret], fun _ htext => by cases htext⟩
  cases currentComm with
  | digi => exact ⟨_, [], [p₁, p₂, p₃], rfl, rfl, by simp [hunasked]⟩
  | canakit =>
    cases id with
    | none => exact ⟨_, [], [p₁, p₂, p₃], rfl, rfl, by simp [hunasked]⟩
    | some id =>
      by_cases hstale : p₁ = .failed → boardId (cString retBuf) = none
      · obtain ⟨reply, rest, hrun, hused, htells⟩ :=
          run_boardRound id ⟨0, retBuf⟩ p₁ [p₂, p₃] rfl hstale
        refine ⟨reply, attempts [p₁, p₂, p₃], rest, hused, hrun, ?_⟩
        rw [htells.reports_iff, findSome?_attempts]
        constructor
        · exact fun hsame => .inr (.inr ⟨hstale, hsame⟩)
        · rintro (hcomm | hnull | ⟨-, hsame⟩)
          · cases hcomm
          · cases hnull
          · exact hsame
      · obtain ⟨rfl, hleft⟩ := Classical.not_imp.mp hstale
        obtain ⟨text, htext⟩ := Option.ne_none_iff_exists'.mp hleft
        obtain ⟨reply, hrun, htells⟩ := run_boardRound_stale id (s := ⟨0, retBuf⟩) [p₂, p₃] htext
        refine ⟨reply, [.failed], [p₂, p₃], rfl, hrun, ?_⟩
        rw [htells.reports_iff]
        simp [hleft, printedId, Popen.output?]

/-- `popen` fails, and the answer to an earlier call is still in `retBuf`. -/
theorem boardId_stale :
    ¬ ∃ reply used rest, [.failed, .failed, .failed] = used ++ rest ∧
      getBoardId .canakit (some []) [73, 68, 58, 32, 48, 53] [.failed, .failed, .failed] =
        some (reply, rest) ∧ Reports used reply := by
  have hcall : getBoardId .canakit (some []) [73, 68, 58, 32, 48, 53]
      [.failed, .failed, .failed] =
        some (⟨1, some [48, 53], [73, 68, 58, 32, 48, 53]⟩, [.failed, .failed]) := by
    rfl
  rintro ⟨reply, used, rest, hall, hreply, hreports⟩
  obtain ⟨rfl, rfl⟩ := Prod.mk.inj (Option.some.inj (hcall.symm.trans hreply))
  obtain rfl : used = [Popen.failed] :=
    (List.append_cancel_right (hall : [Popen.failed] ++ _ = _)).symm
  obtain ⟨p, hp, output, houtput, -⟩ := hreports.ret.mp rfl
  obtain rfl := List.mem_singleton.mp hp
  cases houtput

end CmaesSolenoid.Canakit
