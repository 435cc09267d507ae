import Sustemu.Ooo.Runs
import Sustemu.Lib.Path

/-!
# Instructions in program order

`path` lists the instructions between commit and fetch in the order in which
they were fetched: the reorder buffer from its head, then the latches of the
front end. Renaming and decoding move the border between the two and leave the
list alone; a commit takes its first element, a misprediction cuts it, and a
fetch appends to it.
-/

set_option autoImplicit false

namespace Sustemu

open Lib

/-- An instruction in program order, and what the back end knows of it. -/
structure Node where
  ir : IRInst
  ready : Bool
  storeData : Word

def ROBEntry.node (entry : ROBEntry) : Node := ⟨entry.ir, entry.ready, entry.storeData⟩

def PipeReg.node (reg : PipeReg) : Node := ⟨reg.ir, false, 0⟩

namespace OOOState

variable {o o' : OOOState}

/-- The entries older than slot `i`, oldest first. -/
def before (o : OOOState) (i : RobIdx) : List Node := (window o.robHead (o.pos i)).map fun j => (o.rob j).node

/-- The instructions in the front end, oldest first. -/
def fetched (o : OOOState) : List Node :=
  ([o.latchIdRn 0, o.latchIdRn 1, o.latchIfId 0, o.latchIfId 1].filter PipeReg.valid).map PipeReg.node

/-- Everything newer than slot `i`. -/
def behind (o : OOOState) (i : RobIdx) : List Node :=
  ((window (i + 1) (o.robCount - o.pos i - 1)).map fun j => (o.rob j).node) ++ o.fetched

/-- All instructions in flight, in program order. -/
def path (o : OOOState) : List Node := (o.live.map fun i => (o.rob i).node) ++ o.fetched

theorem path_split (renamed : o.Renamed) {i : RobIdx} (valid : (o.rob i).valid = true) :
    o.path = o.before i ++ (o.rob i).node :: o.behind i := by
  have inside : age o.robHead i < o.robCount := (renamed.valid i).mp valid
  unfold path live before behind
  rw [window_split inside, List.map_append, List.map_cons, List.append_assoc]
  rfl

/-- Rewriting one live entry. -/
theorem path_update (renamed : o.Renamed) {i : RobIdx} {entry : ROBEntry} (valid : (o.rob i).valid = true)
    (rob : o'.rob = setAt o.rob i entry) (head : o'.robHead = o.robHead) (count : o'.robCount = o.robCount)
    (idRn : o'.latchIdRn = o.latchIdRn) (ifId : o'.latchIfId = o.latchIfId) :
    o'.path = o.before i ++ entry.node :: o.behind i := by
  have inside : age o.robHead i < o.robCount := (renamed.valid i).mp valid
  have unique := nodup_window o.robHead renamed.bounded
  rw [window_split inside] at unique
  obtain ⟨_, newer, apart⟩ := List.nodup_append.mp unique
  have nodes : (fun j => (setAt o.rob i entry j).node) =
      setAt (fun j => (o.rob j).node) i entry.node := by
    funext j
    by_cases here : j = i
    · rw [here, setAt_self, setAt_self]
    · rw [setAt_of_ne here, setAt_of_ne here]
  unfold path live before behind fetched
  rw [rob, head, count, idRn, ifId, window_split inside, nodes, List.map_append, List.map_cons, List.append_assoc]
  rw [map_update_window_of_not_mem _ _ _ _ fun older => apart i older i List.mem_cons_self rfl]
  rw [map_update_window_of_not_mem _ _ _ _ (List.nodup_cons.mp newer).1, setAt_self]
  rfl

/-- Rewriting an entry leaves the older ones alone. -/
theorem before_update {i : RobIdx} {entry : ROBEntry} (rob : o'.rob = setAt o.rob i entry)
    (head : o'.robHead = o.robHead) : o'.before i = o.before i := by
  unfold before pos
  rw [head]
  apply List.map_congr_left
  intro j member
  rw [rob, setAt_of_ne]
  rintro rfl
  exact absurd ((mem_window_iff (age_lt o.robHead j).le).mp member) (Nat.lt_irrefl _)

theorem Completes.path {eu : EU} {s : Fin 2} {entry : ROBEntry} {result : Word}
    (completes : o.Completes eu s entry result o') (inv : o.Inv) (live : o.Live eu s) :
    o'.path = o.before (o.latch eu s).robIdx ++ entry.node :: o.behind (o.latch eu s).robIdx :=
  path_update inv.renamed (inv.live_entry live).1 completes.rob completes.head completes.count completes.front.1
    completes.front.2.1

/-- A flush cuts the path behind the mispredicted instruction. -/
theorem Flushes.path {b : RobIdx} (flushes : o.Flushes b o') : o'.path = o.before b ++ [(o.rob b).node] := by
  have empty : o'.fetched = [] := by
    unfold fetched
    simp [flushes.idRn, flushes.ifId]
  have within : o.pos b + 1 ≤ 32 := age_lt o.robHead b
  have entries : ∀ i ∈ window o.robHead (o.pos b + 1), o'.rob i = o.rob i := by
    intro i member
    have position : o.pos i < o.pos b + 1 := (mem_window_iff within).mp member
    exact flushes.older i (by omega)
  unfold OOOState.path OOOState.live
  rw [empty, List.append_nil, flushes.head, flushes.count]
  rw [List.map_congr_left fun i member => congrArg ROBEntry.node (entries i member), window_succ_last, List.map_append]
  rw [show o.robHead + Fin.ofNat 32 (o.pos b) = b from add_age o.robHead b]
  rfl

/-- A commit takes the first instruction of the path. -/
theorem CommitFrame.path (frame : o.CommitFrame o') (renamed : o.Renamed) (live : o.robCount ≠ 0) :
    o.path = (o.rob o.robHead).node :: o'.path := by
  obtain ⟨rest, count⟩ := Nat.exists_eq_succ_of_ne_zero live
  have bounded := renamed.bounded
  have others : ∀ i ∈ window (o.robHead + 1) rest, o'.rob i = o.rob i := by
    intro i member
    rw [frame.rob, setAt_of_ne]
    rintro rfl
    exact head_not_mem_window_tail o.robHead (by omega) member
  have fetched : o'.fetched = o.fetched := by
    unfold OOOState.fetched
    rw [frame.idRn, frame.ifId]
  unfold OOOState.path OOOState.live
  rw [frame.head, frame.count, count, fetched, Nat.succ_sub_one]
  rw [List.map_congr_left fun i member => congrArg ROBEntry.node (others i member), window_succ]
  rfl

/-- Renaming moves an instruction from the front end to the reorder buffer. -/
theorem Renames.path {n : Fin 2} {seq : Nat} {slot : RsIdx} (renames : o.Renames (o.latchIdRn n).ir seq slot o')
    (renamed : o.Renamed) (room : o.robCount < 32) (valid : (o.latchIdRn n).valid = true)
    (inOrder : n = 1 → (o.latchIdRn 0).valid = false) :
    ({ o' with latchIdRn := setAt o.latchIdRn n { o.latchIdRn n with valid := false } } : OOOState).path =
      o.path := by
  have last : o.robTail ∉ window o.robHead o.robCount := by
    rw [renamed.tail]
    exact last_not_mem_window o.robHead room
  have others : ∀ i ∈ window o.robHead o.robCount, (o'.rob i).node = (o.rob i).node := by
    intro i member
    rw [renames.rob, setAt_of_ne]
    rintro rfl
    exact last member
  have added : (o'.rob (o.robHead + Fin.ofNat 32 o.robCount)).node = (o.latchIdRn n).node := by
    rw [← renamed.tail, renames.rob, setAt_self]
    rfl
  have front : o.fetched = (o.latchIdRn n).node :: ({ o' with
      latchIdRn := setAt o.latchIdRn n { o.latchIdRn n with valid := false } } : OOOState).fetched := by
    unfold fetched
    simp only [renames.latchIfId]
    rcases Fin.exists_fin_two.mp ⟨n, rfl⟩ with first | second
    · subst first
      simp [valid]
    · subst second
      simp [valid, inOrder rfl]
  unfold OOOState.path OOOState.live
  rw [front]
  simp only [renames.head, renames.count]
  rw [window_succ_last, List.map_append, List.map_congr_left others, List.map_singleton, added, List.append_assoc]
  rfl

theorem path_compact (consumed : (o.latchIdRn 0).valid = false) (left : (o.latchIdRn 1).valid = true) :
    ({ o with latchIdRn := fun s =>
        if s = 0 then o.latchIdRn 1 else { o.latchIdRn 1 with valid := false } } : OOOState).path = o.path := by
  have front : ({ o with latchIdRn := fun s =>
      if s = 0 then o.latchIdRn 1 else { o.latchIdRn 1 with valid := false } } : OOOState).fetched = o.fetched := by
    simp [fetched, consumed, left]
  unfold path
  rw [front]
  rfl

theorem path_decode (consumed : ∀ s, (o.latchIdRn s).valid = false) :
    ({ o with latchIdRn := o.latchIfId,
              latchIfId := fun s => { o.latchIfId s with valid := false } } : OOOState).path = o.path := by
  have front : ({ o with latchIdRn := o.latchIfId,
                         latchIfId := fun s => { o.latchIfId s with valid := false } } : OOOState).fetched = o.fetched := by
    simp [fetched, List.filter_cons, consumed]
  unfold path
  rw [front]
  rfl

/-- A fetch appends to the path. -/
theorem path_fetch {s : Fin 2} {ir : IRInst} {next : Word} (inOrder : ∀ t, (o.latchIfId t).valid = decide (t < s)) :
    ({ o with latchIfId := setAt o.latchIfId s ⟨ir, true⟩, fetchPc := next } : OOOState).path =
      o.path ++ [⟨ir, false, 0⟩] := by
  have front : ({ o with latchIfId := setAt o.latchIfId s ⟨ir, true⟩, fetchPc := next } : OOOState).fetched =
      o.fetched ++ [⟨ir, false, 0⟩] := by
    have first := inOrder 0
    have second := inOrder 1
    unfold fetched
    rcases Fin.exists_fin_two.mp ⟨s, rfl⟩ with zero | one
    · subst zero
      simp [List.filter_cons, first, second]
      split <;> split <;> rfl
    · subst one
      simp [List.filter_cons, first, second]
      split <;> split <;> rfl
  unfold path
  rw [front, List.append_assoc]
  rfl

end OOOState

namespace Engine

variable {σ β : Type} {e : Engine σ β}

/-- A mispredicted instruction completes and the path is cut behind it. -/
theorem redirect_path {o : OOOState} {s : Fin 2} {perf : Perf} {sys sys' : Sys} {ir : IRInst} {next : Word}
    (ok : e.ooo.Ok) (live : e.ooo.Live .int s)
    (run : irExecute perf (operands e.ooo (e.ooo.latch .int s)) sys = some (ir, sys'))
    (completes : e.ooo.Completes .int s { e.ooo.slotEntry .int s with ir := ir, ready := true } ir.result o) :
    ({ o.flushAfter (e.ooo.latch .int s).robIdx with fetchPc := next } : OOOState).path =
      e.ooo.before (e.ooo.latch .int s).robIdx ++ [⟨ir, true, (e.ooo.slotEntry .int s).storeData⟩] := by
  have flushes := (redirect_flushes ok live run completes).2
  have cut := flushes.path
  rw [OOOState.before_update completes.rob completes.head, completes.rob, setAt_self] at cut
  exact cut

end Engine

end Sustemu
