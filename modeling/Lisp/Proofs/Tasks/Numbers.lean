import Lisp.Threads
import Mathlib

/-!
# The numbers of tasks

Every number that was given out is the number of one task, which one thread starts.  `Numbered` is
what the threads keep about it, whatever they do: the numbers count up from one, a task starts only
tasks with later numbers, and a task that is not tracked yet is still being started.
-/

namespace Lisp

/-! ## 1. The handles of a tracker -/

def Handle.Holds (h : Handle) (outcome : Outcome) : Prop :=
  h.message = some outcome ∨ h.result = some outcome

namespace Tracker

variable {t : Tracker} {id : Nat} {h old : Handle}

theorem handle?_eq_some_iff :
    t.handle? id = some h ↔ 0 < id ∧ t.handles[id - 1]? = some h := by
  unfold handle?
  split <;> grind

theorem exists_handle (hpos : 0 < id) (hle : id ≤ t.handles.length) : ∃ h, t.handle? id = some h :=
  ⟨t.handles[id - 1], handle?_eq_some_iff.mpr ⟨hpos, List.getElem?_eq_getElem (by omega)⟩⟩

theorem handle?_setHandle (hid : t.handle? id = some old) (h : Handle) (other : Nat) :
    (t.setHandle id h).handle? other = if other = id then some h else t.handle? other := by
  obtain ⟨hpos, hget⟩ := handle?_eq_some_iff.mp hid
  unfold setHandle handle?
  grind

theorem setHandle_setHandle (t : Tracker) (id : Nat) (old h : Handle) :
    (t.setHandle id old).setHandle id h = t.setHandle id h := by
  simp [setHandle]

theorem handle?_issue (t : Tracker) (other : Nat) :
    t.issue.2.handle? other = if other = t.issue.1 then some .running else t.handle? other := by
  unfold issue handle?
  grind

theorem send_eq_self (hid : t.handle? id = none) (outcome : Outcome) : t.send id outcome = t := by
  rw [send, hid]

@[simp] theorem length_handles_setHandle (t : Tracker) (id : Nat) (h : Handle) :
    (t.setHandle id h).handles.length = t.handles.length := List.length_set

@[simp] theorem length_handles_send (t : Tracker) (id : Nat) (outcome : Outcome) :
    (t.send id outcome).handles.length = t.handles.length := by
  unfold send
  split
  · exact length_handles_setHandle t id _
  · rfl

@[simp] theorem tracked_send (t : Tracker) (id : Nat) (outcome : Outcome) :
    (t.send id outcome).tracked = t.tracked := by
  unfold send
  split <;> rfl

theorem isDone_iff :
    t.isDone id = true ↔ ∃ h outcome, t.handle? id = some h ∧ h.Holds outcome := by
  simp only [isDone, Option.any_eq_true, Handle.isDone, Handle.Holds, Bool.or_eq_true,
    Option.isSome_iff_exists]
  grind

end Tracker

/-! ## 2. Numbers -/

namespace Activity

@[grind =]
def spawning? : Activity → Option Nat
  | .issued id | .started id => some id
  | _ => none

/-- Whether a thread has begun to run and starts no task. -/
def settled : Activity → Bool
  | .unborn | .issued _ | .started _ => false
  | _ => true

theorem spawning?_of_settled {a : Activity} (h : a.settled = true) : a.spawning? = none := by
  cases a <;> first | rfl | cases h

theorem ne_unborn_of_settled {a : Activity} (h : a.settled = true) : a ≠ .unborn := by
  rintro rfl
  cases h

end Activity

namespace Threads

variable {s s' : Threads} {who : Thread} {id : Nat}

/-- What is asked about the activities of threads stays as it is when it does for the one that
changes. -/
theorem view_become {α : Type} (view : Activity → α) {a : Activity}
    (ha : view a = view (s.doing who)) (t : Thread) :
    view ((s.become who a).doing t) = view (s.doing t) := by
  rw [doing_become]
  split
  next heq => rw [ha, heq]
  next => rfl

structure Numbered (s : Threads) : Prop where
  /-- The numbers that were given out are those from one on. -/
  numbers : s.issued.map Prod.fst = (List.range' 1 s.tracker.handles.length).reverse
  /-- A thread that has begun to run is that of a task that was started. -/
  born : ∀ id, s.doing (.task id) ≠ .unborn → ∃ who, (id, who) ∈ s.issued
  /-- A task starts tasks with numbers after its own. -/
  older : ∀ id parent, (id, .task parent) ∈ s.issued → parent < id
  unborn : ∀ who id, s.doing who = .issued id → s.doing (.task id) = .unborn
  spawning : ∀ who id, (s.doing who).spawning? = some id → (id, who) ∈ s.issued ∧ id ∉ s.spawned
  /-- A task that has not been tracked is still being started. -/
  pending : ∀ id who, (id, who) ∈ s.issued → id ∈ s.spawned ∨ (s.doing who).spawning? = some id
  spawned : ∀ id ∈ s.spawned, ∃ who, (id, who) ∈ s.issued

namespace Numbered

theorem initial : Numbered initial where
  numbers := rfl
  born _ h := absurd rfl h
  older _ _ h := nomatch h
  unborn who _ h := by cases who <;> nomatch h
  spawning who _ h := by cases who <;> nomatch h
  pending _ _ h := nomatch h
  spawned _ h := nomatch h

theorem bounds (h : s.Numbered) (hid : (id, who) ∈ s.issued) :
    0 < id ∧ id ≤ s.tracker.handles.length := by
  have hmem : id ∈ s.issued.map Prod.fst := List.mem_map_of_mem hid
  rw [h.numbers, List.mem_reverse, List.mem_range'_1] at hmem
  omega

theorem nodup (h : s.Numbered) : (s.issued.map Prod.fst).Nodup := by
  rw [h.numbers, List.nodup_reverse]
  exact List.nodup_range'

theorem starter_unique (h : s.Numbered) {who' : Thread} (hid : (id, who) ∈ s.issued)
    (hid' : (id, who') ∈ s.issued) : who = who' :=
  congrArg Prod.snd (List.inj_on_of_nodup_map h.nodup hid hid' rfl)

theorem spawner_unique (h : s.Numbered) {who' : Thread}
    (hwho : (s.doing who).spawning? = some id) (hwho' : (s.doing who').spawning? = some id) :
    who = who' :=
  h.starter_unique (h.spawning who id hwho).1 (h.spawning who' id hwho').1

theorem exists_handle (h : s.Numbered) (hid : (id, who) ∈ s.issued) :
    ∃ handle, s.tracker.handle? id = some handle :=
  Tracker.exists_handle (h.bounds hid).1 (h.bounds hid).2

/-- A step keeps this if it starts no task, and a thread whose activity changes has begun to run
and starts no task, before the step and after it. -/
theorem congr (h : s.Numbered)
    (handles : s'.tracker.handles.length = s.tracker.handles.length)
    (issued : s'.issued = s.issued) (spawned : s'.spawned = s.spawned)
    (doing : ∀ t, s'.doing t = s.doing t ∨
      (s.doing t).settled = true ∧ (s'.doing t).settled = true) : s'.Numbered := by
  have hspawning : ∀ t, (s'.doing t).spawning? = (s.doing t).spawning? := fun t => by
    obtain heq | ⟨hbefore, hafter⟩ := doing t
    · rw [heq]
    · rw [Activity.spawning?_of_settled hbefore, Activity.spawning?_of_settled hafter]
  have hunborn : ∀ t, s'.doing t = .unborn ↔ s.doing t = .unborn := fun t => by
    obtain heq | ⟨hbefore, hafter⟩ := doing t
    · rw [heq]
    · simp only [Activity.ne_unborn_of_settled hbefore, Activity.ne_unborn_of_settled hafter]
  constructor
  case numbers => rw [issued, handles, h.numbers]
  case unborn =>
    intro who id hissued
    obtain heq | ⟨-, hafter⟩ := doing who
    · exact (hunborn _).mpr (h.unborn who id (heq ▸ hissued))
    · rw [hissued] at hafter
      cases hafter
  all_goals simp only [issued, spawned, hspawning, ne_eq, hunborn]
  case born => exact h.born
  case older => exact h.older
  case spawning => exact h.spawning
  case pending => exact h.pending
  case spawned => exact h.spawned

theorem settled_become {a : Activity} (hwho : (s.doing who).settled = true)
    (ha : a.settled = true) (t : Thread) :
    (s.become who a).doing t = s.doing t ∨
      (s.doing t).settled = true ∧ ((s.become who a).doing t).settled = true := by
  rw [doing_become]
  split
  next heq => exact .inr ⟨heq ▸ hwho, ha⟩
  next => exact .inl rfl

protected theorem issue (h : s.Numbered) (free : s.doing who = .free) : (s.issue who).Numbered := by
  have fresh : ∀ t, (s.tracker.handles.length + 1, t) ∉ s.issued := fun t ht => by
    have := (h.bounds ht).2
    omega
  constructor
  case numbers =>
    simp [Threads.issue, Tracker.issue, h.numbers, List.range'_concat, Nat.add_comm]
  all_goals simp only [Threads.issue, Tracker.issue, doing_become, issued_become, spawned_become]
  case born => grind [h.born]
  case older =>
    -- A task that starts another one has begun to run, so its number was given out before.
    have hparent : ∀ parent, who = .task parent → parent < s.tracker.handles.length + 1 := by
      intro parent rfl
      obtain ⟨starter, hstarter⟩ := h.born parent (by simp [free])
      exact Nat.lt_succ_of_le (h.bounds hstarter).2
    have := h.older
    grind
  case unborn => grind [h.unborn, h.born]
  case spawning => grind [h.spawning, h.spawned]
  case pending =>
    have := h.pending
    grind
  case spawned => grind [h.spawned]

theorem begun (h : s.Numbered) (hwho : s.doing who = .issued id) {a : Activity}
    (ha : a.spawning? = none ∧ a ≠ .unborn)
    (handles : s'.tracker.handles.length = s.tracker.handles.length)
    (issued : s'.issued = s.issued) (spawned : s'.spawned = s.spawned)
    (doing : s'.doing = ((s.become (.task id) a).become who (.started id)).doing) :
    s'.Numbered := by
  have hspawning : (s.doing who).spawning? = some id := by rw [hwho]; rfl
  have hid := h.spawning who id hspawning
  have hone : ∀ t, (s.doing t).spawning? = some id → t = who := fun t ht =>
    h.spawner_unique ht hspawning
  have hunborn := h.unborn who id hwho
  constructor
  case numbers => rw [issued, handles, h.numbers]
  all_goals simp only [doing, issued, spawned, doing_become]
  case born => grind [h.born]
  case older => exact h.older
  case unborn => grind [h.unborn]
  case spawning => grind [h.spawning]
  case pending =>
    have := h.pending
    grind
  case spawned => exact h.spawned

protected theorem register (h : s.Numbered) (hwho : s.doing who = .started id) :
    (s.register who id).Numbered := by
  have hspawning : (s.doing who).spawning? = some id := by rw [hwho]; rfl
  have hid := h.spawning who id hspawning
  have hone : ∀ t, (s.doing t).spawning? = some id → t = who := fun t ht =>
    h.spawner_unique ht hspawning
  constructor
  case numbers => exact h.numbers
  all_goals simp only [Threads.register, doing_become, issued_become, spawned_become]
  case born => grind [h.born]
  case older => exact h.older
  case unborn => grind [h.unborn]
  case spawning => grind [h.spawning]
  case pending =>
    have := h.pending
    grind
  case spawned => grind [h.spawned]

protected theorem step (h : s.Numbered) (hs : Step who s s') : s'.Numbered := by
  cases hs with
  | issue free => exact h.issue free
  | start issued => exact h.begun issued (by simp [Activity.spawning?]) rfl rfl rfl rfl
  | refuse issued reason =>
    refine h.begun issued (by simp [Activity.spawning?]) ?_ rfl rfl rfl
    simp [refuse, Tracker.report]
  | register started => exact h.register started
  | finish own free outcome =>
    exact h.congr rfl rfl rfl (settled_become (by rw [free]; rfl) rfl)
  | @report id outcome own ending =>
    refine h.congr ?_ rfl rfl (settled_become (by rw [← own, ending]; rfl) rfl)
    cases outcome <;> rfl
  | send own sending =>
    refine h.congr ?_ rfl rfl (settled_become (by rw [← own, sending]; rfl) rfl)
    simp [send]
  | await free spawned =>
    exact h.congr rfl rfl rfl (settled_become (by rw [free]; rfl) rfl)
  | @look id purpose handle outcome awaiting =>
    cases purpose <;> exact h.congr rfl rfl rfl (settled_become (by rw [awaiting]; rfl) rfl)
  | receive awaiting =>
    refine h.congr ?_ rfl rfl (settled_become (by rw [awaiting]; rfl) rfl)
    simp [receive]
  | @store id purpose handle outcome storing =>
    cases purpose <;>
    · refine h.congr ?_ rfl rfl (settled_become (by rw [storing]; rfl) rfl)
      simp [store, conclude]
  | join free => exact h.congr rfl rfl rfl (settled_become (by rw [free]; rfl) rfl)
  | take => exact h.congr rfl rfl rfl fun _ => .inl rfl
  | next joining => exact h.congr rfl rfl rfl (settled_become (by rw [joining]; rfl) rfl)
  | leave joining => exact h.congr rfl rfl rfl (settled_become (by rw [joining]; rfl) rfl)

end Numbered

end Threads

end Lisp
