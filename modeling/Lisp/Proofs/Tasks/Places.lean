import Lisp.Proofs.Tasks.Outcomes

/-!
# The places of tasks

Once a task has been tracked it is in one place at a time: it is tracked still, or one call that
joins has taken it, or it was dropped after it had ended.  `Joined` is what is kept about the calls
that join, each of which waits for the tasks of its batch from the first to the last, and `Placed`
is what is kept about the places.
-/

namespace Lisp

/-! ## 1. Calls that join -/

namespace Activity

/-- The call that a thread is in, of those that join, with the task that the call waits for. -/
def joining? : Activity → Option (Nat × Option Nat)
  | .joining n => some (n, none)
  | .awaiting id (.join n) | .storing id _ (.join n) => some (n, some id)
  | _ => none

end Activity

namespace Threads

variable {s s' : Threads} {who : Thread} {id n : Nat} {outcome : Outcome}

structure Joined (s : Threads) : Prop where
  /-- Who is in a call has made it, and waits for the first task of its batch. -/
  caller : ∀ t n target, (s.doing t).joining? = some (n, target) →
    ∃ c, s.joins[n]? = some c ∧ c.caller = t ∧ ∀ id ∈ target, c.batch.head? = some id
  /-- A call does not return before its batch is empty. -/
  busy : ∀ n c, s.joins[n]? = some c → c.batch ≠ [] →
    ∃ target, (s.doing c.caller).joining? = some (n, target)

namespace Joined

theorem initial : Joined initial where
  caller t _ _ h := by cases t <;> nomatch h
  busy _ _ h := nomatch h

theorem caller_unique (h : s.Joined) {t : Thread} {target target' : Option Nat}
    (ht : (s.doing t).joining? = some (n, target))
    (hwho : (s.doing who).joining? = some (n, target')) : t = who := by
  obtain ⟨c, hc, rfl, -⟩ := h.caller t n target ht
  obtain ⟨d, hd, rfl, -⟩ := h.caller who n target' hwho
  cases hc.symm.trans hd
  rfl

theorem congr (h : s.Joined) (joins : s'.joins = s.joins)
    (joining : ∀ t, (s'.doing t).joining? = (s.doing t).joining?) : s'.Joined where
  caller := by simpa only [joins, joining] using h.caller
  busy := by simpa only [joins, joining] using h.busy

theorem joining?_begun (hn : s.Numbered) (hwho : s.doing who = .issued id) {a : Activity}
    (ha : a.joining? = none) (t : Thread) :
    (((s.become (.task id) a).become who (.started id)).doing t).joining? =
      (s.doing t).joining? := by
  have hstarted : ∀ t, ((s.become (.task id) a).doing t).joining? = (s.doing t).joining? :=
    view_become Activity.joining? (by rw [ha, hn.unborn who id hwho]; rfl)
  rw [view_become Activity.joining? (by rw [hstarted, hwho]; rfl), hstarted]

theorem update (h : s.Joined) {a : Activity} {c d : JoinCall} {target target' : Option Nat}
    (hwho : (s.doing who).joining? = some (n, target)) (hcall : s.joins[n]? = some c)
    (hcaller : d.caller = c.caller) (ha : a.joining? = some (n, target'))
    (hhead : ∀ id ∈ target', d.batch.head? = some id)
    (joins : ∀ m, s'.joins[m]? = if m = n then some d else s.joins[m]?)
    (doing : ∀ t, s'.doing t = if t = who then a else s.doing t) : s'.Joined := by
  obtain ⟨_, hc, hwhocaller, -⟩ := h.caller who n target hwho
  cases hcall.symm.trans hc
  constructor
  case caller =>
    intro t m found ht
    rw [doing] at ht
    split at ht
    next heq =>
      cases ha.symm.trans ht
      exact ⟨d, by rw [joins, if_pos rfl], by rw [hcaller, hwhocaller, heq], hhead⟩
    next hne =>
      -- Another thread is in another call.
      have hm : m ≠ n := by
        rintro rfl
        exact hne (h.caller_unique ht hwho)
      rw [joins, if_neg hm]
      exact h.caller t m found ht
  case busy =>
    intro m e he hbatch
    rw [joins] at he
    split at he
    next heq =>
      cases he
      exact ⟨target', by rw [doing, hcaller, hwhocaller, if_pos rfl, ha, heq]⟩
    next hne =>
      obtain ⟨found, hfound⟩ := h.busy m e he hbatch
      refine ⟨found, ?_⟩
      rw [doing, if_neg, hfound]
      rintro rfl
      cases hwho.symm.trans hfound
      exact hne rfl

theorem getElem?_set {joins : List JoinCall} {c : JoinCall} (hcall : joins[n]? = some c)
    (c' : JoinCall) (m : Nat) : (joins.set n c')[m]? = if m = n then some c' else joins[m]? := by
  grind

protected theorem conclude (h : s.Joined)
    (hwho : (s.doing who).joining? = some (n, some id)) (outcome : Outcome) :
    (s.conclude who id outcome (.join n)).Joined := by
  obtain ⟨c, hcall, -, -⟩ := h.caller who n _ hwho
  refine h.update hwho hcall rfl (a := .joining n) rfl (by simp) (d := c.found id outcome)
    (fun m => ?_) (fun t => rfl)
  rw [← getElem?_set hcall, conclude, joins_become, List.modify_eq_set_getElem?, hcall]
  rfl

protected theorem join (h : s.Joined) (free : s.doing who = .free) : (s.join who).Joined where
  caller t n target ht := by
    simp only [Threads.join, doing_become] at ht
    split at ht
    next heq =>
      cases ht
      exact ⟨_, List.getElem?_concat_length, heq.symm, by simp⟩
    next =>
      obtain ⟨c, hc, hcaller⟩ := h.caller t n target ht
      have hlt : n < s.joins.length := (List.getElem?_eq_some_iff.mp hc).1
      exact ⟨c, (List.getElem?_append_left hlt).trans hc, hcaller⟩
  busy n c hc hbatch := by
    have hc : (s.joins ++ [(⟨who, [], []⟩ : JoinCall)])[n]? = some c := hc
    rw [List.getElem?_append] at hc
    split at hc
    next =>
      obtain ⟨target, htarget⟩ := h.busy n c hc hbatch
      refine ⟨target, ?_⟩
      simp only [Threads.join, doing_become]
      rw [if_neg, htarget]
      intro heq
      rw [heq, free] at htarget
      cases htarget
    next =>
      obtain rfl := List.mem_singleton.mp (List.mem_of_getElem? hc)
      exact absurd rfl hbatch

protected theorem leave (h : s.Joined) {c : JoinCall} (joining : s.doing who = .joining n)
    (call : s.joins[n]? = some c) (done : c.batch = []) : (s.leave who).Joined where
  caller t m target ht := by
    simp only [Threads.leave, doing_become] at ht
    split at ht
    next => cases ht
    next => exact h.caller t m target ht
  busy m d hd hbatch := by
    obtain ⟨target, htarget⟩ := h.busy m d hd hbatch
    refine ⟨target, ?_⟩
    simp only [Threads.leave, doing_become]
    rw [if_neg, htarget]
    intro heq
    rw [heq, joining] at htarget
    cases htarget
    cases call.symm.trans hd
    exact hbatch done

protected theorem step (h : s.Joined) (hn : s.Numbered) (hs : Step who s s') : s'.Joined := by
  cases hs with
  | issue free => exact h.congr rfl (view_become Activity.joining? (by rw [free]; rfl))
  | start issued => exact h.congr rfl (joining?_begun hn issued rfl)
  | refuse issued reason => exact h.congr rfl (joining?_begun hn issued rfl)
  | register started => exact h.congr rfl (view_become Activity.joining? (by rw [started]; rfl))
  | finish own free outcome => exact h.congr rfl (view_become Activity.joining? (by rw [free]; rfl))
  | report own ending => exact h.congr rfl (view_become Activity.joining? (by rw [← own, ending]; rfl))
  | send own sending => exact h.congr rfl (view_become Activity.joining? (by rw [← own, sending]; rfl))
  | await free spawned => exact h.congr rfl (view_become Activity.joining? (by rw [free]; rfl))
  | @look id purpose _ outcome awaiting =>
    cases purpose with
    | single => exact h.congr rfl (view_become Activity.joining? (by rw [awaiting]; rfl))
    | join n => exact h.conclude (by rw [awaiting]; rfl) outcome
  | @receive id purpose _ _ outcome awaiting =>
    exact h.congr rfl (view_become Activity.joining? (by rw [awaiting]; cases purpose <;> rfl))
  | @store id purpose handle outcome storing =>
    cases purpose with
    | single => exact h.congr rfl (view_become Activity.joining? (by rw [storing]; rfl))
    | join n =>
      have h : Joined { s with tracker := s.tracker.setHandle id (handle.store outcome) } :=
        h.congr rfl fun _ => rfl
      exact h.conclude (by simp only [storing]; rfl) outcome
  | join free => exact h.join free
  | @take n c joining call done more =>
    refine h.update (by rw [joining]; rfl) call rfl (a := .joining n)
      (d := { c with batch := s.tracker.takeAll.1 }) rfl (by simp) (getElem?_set call _) fun t => ?_
    split
    next heq => rw [heq]; exact joining
    next => rfl
  | @next n id c joining call first =>
    refine h.update (by rw [joining]; rfl) call rfl (a := .awaiting id (.join n)) rfl
      (by simpa using first) (fun m => ?_) fun t => rfl
    split
    next heq => rw [heq]; exact call
    next => rfl
  | leave joining call done nothing => exact h.leave joining call done

end Joined

/-! ## 2. Places -/

/-- The tasks that are tracked, those that the calls have taken, and those that were dropped. -/
def places (s : Threads) : List Nat :=
  s.tracker.tracked ++ s.joins.flatMap JoinCall.tasks ++ s.dropped

structure Placed (s : Threads) : Prop where
  once : s.spawned.Nodup
  perm : s.places.Perm s.spawned

theorem flatMap_tasks_set {joins : List JoinCall} {c d : JoinCall} {taken : List Nat}
    (hcall : joins[n]? = some c) (h : d.tasks.Perm (taken ++ c.tasks)) :
    ((joins.set n d).flatMap JoinCall.tasks).Perm (taken ++ joins.flatMap JoinCall.tasks) := by
  induction joins generalizing n with
  | nil => nomatch hcall
  | cons e joins ih =>
    cases n with
    | zero =>
      cases hcall
      simpa only [List.set_cons_zero, List.flatMap_cons, List.append_assoc] using h.append_right _
    | succ n =>
      simp only [List.set_cons_succ, List.flatMap_cons]
      exact ((ih hcall).append_left e.tasks).trans
        (List.perm_append_comm_assoc e.tasks taken _)

namespace Placed

theorem initial : Placed initial where
  once := List.nodup_nil
  perm := .nil

theorem congr (h : s.Placed) (spawned : s'.spawned = s.spawned) (places : s'.places.Perm s.places) :
    s'.Placed where
  once := spawned ▸ h.once
  perm := spawned ▸ places.trans h.perm

protected theorem register (h : s.Placed) (hid : id ∉ s.spawned) : (s.register who id).Placed where
  once := List.nodup_cons.mpr ⟨hid, h.once⟩
  perm := by
    rw [List.perm_iff_count]
    intro a
    have hplaces := h.perm.count_eq a
    have hfilter := (List.filter_append_perm s.tracker.isDone s.tracker.tracked).count_eq a
    simp only [places, Threads.register, Tracker.register, tracker_become, joins_become,
      dropped_become, spawned_become, List.count_append, List.count_cons, List.count_nil]
      at hplaces hfilter ⊢
    omega

protected theorem conclude (h : s.Placed) {c : JoinCall} (hcall : s.joins[n]? = some c)
    (hhead : c.batch.head? = some id) : (s.conclude who id outcome (.join n)).Placed := by
  have hfound : (c.found id outcome).tasks.Perm ([] ++ c.tasks) := by
    obtain ⟨rest, hbatch⟩ := List.head?_eq_some_iff.mp hhead
    simp only [JoinCall.tasks, JoinCall.found, hbatch, List.tail_cons, List.map_append,
      List.map_cons, List.map_nil, List.nil_append, List.cons_append, ← List.append_assoc]
    exact List.perm_append_singleton id _
  refine h.congr rfl (.append_right _ (.append_left _ ?_))
  simp only [Threads.conclude, joins_become, List.modify_eq_set_getElem?, hcall]
  exact flatMap_tasks_set hcall hfound

protected theorem step (h : s.Placed) (hn : s.Numbered) (hj : s.Joined) (hs : Step who s s') :
    s'.Placed := by
  cases hs with
  | @register id started =>
    have hspawning : (s.doing who).spawning? = some id := by rw [started]; rfl
    exact h.register (hn.spawning who id hspawning).2
  | @look id purpose _ outcome awaiting =>
    cases purpose with
    | single => exact h.congr rfl (.refl _)
    | join n =>
      obtain ⟨c, hcall, -, hhead⟩ := hj.caller who n (some id) (by rw [awaiting]; rfl)
      exact h.conclude hcall (hhead id rfl)
  | @store id purpose handle outcome storing =>
    cases purpose with
    | single => exact h.congr rfl (.refl _)
    | join n =>
      obtain ⟨c, hcall, -, hhead⟩ := hj.caller who n (some id) (by rw [storing]; rfl)
      have h : Placed { s with tracker := s.tracker.setHandle id (handle.store outcome) } :=
        h.congr rfl (.refl _)
      exact h.conclude hcall (hhead id rfl)
  | join free =>
    refine h.congr rfl (.append_right _ (.append_left _ (.of_eq ?_)))
    simp [Threads.join, JoinCall.tasks]
  | @take n c joining call done more =>
    refine h.congr rfl (.append_right _ ?_)
    exact flatMap_tasks_set call (by rw [JoinCall.tasks, JoinCall.tasks, done]; exact .refl _)
  | leave joining call done nothing =>
    have htracked : s.tracker.tracked = [] := nothing
    exact h.congr rfl (.of_eq (by simp [places, Threads.leave, Tracker.takeAll, htracked]))
  | @report id outcome => cases outcome <;> exact h.congr rfl (.refl _)
  | send own sending => exact h.congr rfl (.of_eq (by simp [places, Threads.send]))
  | _ => exact h.congr rfl (.refl _)

end Placed

end Threads

end Lisp
