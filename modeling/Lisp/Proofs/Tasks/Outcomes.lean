import Lisp.Proofs.Tasks.Numbers

/-!
# The outcomes of tasks

A task ends once, in one outcome, and from then on its thread does nothing.  An outcome is `Seen`
where it is on its way to those who wait: in the handle of the task, with a thread that has received
it, or with a call that has found it.  Whatever is seen of a task, at any time and by anyone, is the
outcome that it ended in: this is `Delivered`.
-/

namespace Lisp

theorem JoinCall.result_of_modify {joins : List JoinCall} {n id other : Nat} {c : JoinCall}
    {outcome result : Outcome} (hc : c ∈ joins.modify n (·.found other result))
    (hfound : (id, outcome) ∈ c.results) :
    (∃ d ∈ joins, (id, outcome) ∈ d.results) ∨ (id, outcome) = (other, result) := by
  obtain ⟨i, hi⟩ := List.mem_iff_getElem?.mp hc
  obtain ⟨d, hd, rfl⟩ := Option.map_eq_some_iff.mp ((List.getElem?_modify ..).symm.trans hi)
  have hmem : d ∈ joins := List.mem_of_getElem? hd
  split at hfound
  · obtain hbefore | hnew := List.mem_append.mp hfound
    · exact .inl ⟨d, hmem, hbefore⟩
    · exact .inr (List.mem_singleton.mp hnew)
  · exact .inl ⟨d, hmem, hfound⟩

namespace Threads

variable {s s' : Threads} {who t : Thread} {id : Nat} {outcome : Outcome} {purpose : Purpose}

/-! ## 1. What a step leaves alone -/

theorem doing_conclude_of_ne (ht : t ≠ who) (id : Nat) (outcome : Outcome) (purpose : Purpose) :
    (s.conclude who id outcome purpose).doing t = s.doing t := by
  cases purpose <;> simp [conclude, ht]

/-- A step changes what its own thread is doing, and what the thread of a task does that it
starts. -/
theorem Step.doing_eq (hs : Step who s s') (ht : t ≠ who)
    (hstart : ∀ id, s.doing who = .issued id → t ≠ .task id) : s'.doing t = s.doing t := by
  cases hs with
  | issue => simp [Threads.issue, ht]
  | start issued => simp [Threads.start, ht, hstart _ issued]
  | refuse issued => simp [Threads.refuse, ht, hstart _ issued]
  | register => simp [Threads.register, ht]
  | finish => simp [ht]
  | report own => simp [Threads.report, ← own, ht]
  | send own => simp [Threads.send, ← own, ht]
  | await => simp [ht]
  | look => exact doing_conclude_of_ne ht _ _ _
  | receive => simp [Threads.receive, ht]
  | store => exact doing_conclude_of_ne ht _ _ _
  | join => simp [Threads.join, ht]
  | take => rfl
  | next => simp [ht]
  | leave => simp [Threads.leave, ht]

theorem Step.not_over (hs : Step who s s') : s.doing who ≠ .over outcome := by
  cases hs <;> simp_all

theorem Step.over_stable (hs : Step who s s') (h : s.Numbered)
    (hover : s.doing (.task id) = .over outcome) : s'.doing (.task id) = .over outcome := by
  have hne : Thread.task id ≠ who := by
    rintro rfl
    exact hs.not_over hover
  have hstart : ∀ started, s.doing who = .issued started → Thread.task id ≠ .task started := by
    rintro started hissued ⟨⟩
    simp [h.unborn who id hissued] at hover
  rw [hs.doing_eq hne hstart, hover]

/-! ## 2. Outcomes on their way -/

inductive Seen (s : Threads) (id : Nat) (outcome : Outcome) : Prop
  | handle {h : Handle} (handle : s.tracker.handle? id = some h) (holds : h.Holds outcome)
  | storing {who : Thread} {purpose : Purpose}
      (storing : s.doing who = .storing id outcome purpose)
  | joined {c : JoinCall} (call : c ∈ s.joins) (found : (id, outcome) ∈ c.results)
  | awaited (found : (id, outcome) ∈ s.awaited)

namespace Seen

variable {other : Nat} {result : Outcome} {a : Activity} {h old : Handle}

theorem mono (hseen : s'.Seen id outcome)
    (handle : ∀ h, s'.tracker.handle? id = some h → h.Holds outcome →
      s.tracker.handle? id = some h)
    (doing : s'.doing = s.doing)
    (joins : ∀ c ∈ s'.joins, (id, outcome) ∈ c.results → ∃ d ∈ s.joins, (id, outcome) ∈ d.results)
    (awaited : (id, outcome) ∈ s'.awaited → (id, outcome) ∈ s.awaited) : s.Seen id outcome := by
  cases hseen with
  | handle hid hholds => exact .handle (handle _ hid hholds) hholds
  | storing h => exact .storing (doing ▸ h)
  | joined hc hfound =>
    obtain ⟨d, hd, hfound⟩ := joins _ hc hfound
    exact .joined hd hfound
  | awaited hfound => exact .awaited (awaited hfound)

theorem congr (hseen : s'.Seen id outcome) (handles : s'.tracker.handles = s.tracker.handles)
    (doing : s'.doing = s.doing) (joins : s'.joins = s.joins) (awaited : s'.awaited = s.awaited) :
    s.Seen id outcome := by
  refine hseen.mono (fun h hid _ => ?_) doing ?_ ?_
  · rwa [Tracker.handle?, handles] at hid
  · rw [joins]
    exact fun c hc hfound => ⟨c, hc, hfound⟩
  · rw [awaited]
    exact fun hfound => hfound

theorem of_become (hseen : (s.become who a).Seen id outcome) :
    s.Seen id outcome ∨ ∃ purpose, a = .storing id outcome purpose := by
  cases hseen with
  | handle hid hholds => exact .inl (.handle hid hholds)
  | @storing t purpose h =>
    rw [doing_become] at h
    split at h
    · exact .inr ⟨purpose, h⟩
    · exact .inl (.storing h)
  | joined hc hfound => exact .inl (.joined hc hfound)
  | awaited hfound => exact .inl (.awaited hfound)

theorem of_setHandle (hid : s.tracker.handle? other = some old)
    (hseen : { s with tracker := s.tracker.setHandle other h }.Seen id outcome) :
    s.Seen id outcome ∨ id = other ∧ h.Holds outcome := by
  cases hseen with
  | handle hhandle hholds =>
    rw [Tracker.handle?_setHandle hid] at hhandle
    split at hhandle
    next heq =>
      cases hhandle
      exact .inr ⟨heq, hholds⟩
    next => exact .inl (.handle hhandle hholds)
  | storing h => exact .inl (.storing h)
  | joined hc hfound => exact .inl (.joined hc hfound)
  | awaited hfound => exact .inl (.awaited hfound)

theorem of_conclude (hseen : (s.conclude who other result purpose).Seen id outcome) :
    s.Seen id outcome ∨ (id, outcome) = (other, result) := by
  by_cases heq : (id, outcome) = (other, result)
  · exact .inr heq
  left
  cases purpose with
  | single =>
    obtain hseen | ⟨_, ⟨⟩⟩ := hseen.of_become
    exact hseen.mono (fun _ hid _ => hid) rfl (fun c hc hfound => ⟨c, hc, hfound⟩)
      fun hfound => (List.mem_cons.mp hfound).resolve_left heq
  | join n =>
    obtain hseen | ⟨_, ⟨⟩⟩ := hseen.of_become
    refine hseen.mono (fun _ hid _ => hid) rfl (fun c hc hfound => ?_) (fun hfound => hfound)
    exact (JoinCall.result_of_modify hc hfound).resolve_right heq

end Seen

/-- Whatever is seen of a task after a step was seen before, or its own thread has ended in it. -/
theorem Step.seen (hs : Step who s s') (h : s.Numbered) (hseen : s'.Seen id outcome) :
    s.Seen id outcome ∨ s'.doing (.task id) = .over outcome := by
  cases hs with
  | issue free =>
    obtain hseen | ⟨_, ⟨⟩⟩ := hseen.of_become
    refine .inl (hseen.mono (fun h hid hholds => ?_) rfl (fun c hc hfound => ⟨c, hc, hfound⟩)
      fun hfound => hfound)
    rw [Tracker.handle?_issue] at hid
    split at hid
    next =>
      cases hid
      simp [Handle.Holds, Handle.running] at hholds
    next => exact hid
  | start issued =>
    obtain hseen | ⟨_, ⟨⟩⟩ := hseen.of_become
    obtain hseen | ⟨_, ⟨⟩⟩ := hseen.of_become
    exact .inl hseen
  | @refuse started issued reason =>
    have hspawning : (s.doing who).spawning? = some started := by rw [issued]; rfl
    obtain ⟨handle, hhandle⟩ := h.exists_handle (h.spawning who started hspawning).1
    have hne : Thread.task started ≠ who := by
      rintro rfl
      simp [h.unborn _ started issued] at issued
    obtain hseen | ⟨_, ⟨⟩⟩ := hseen.of_become
    obtain hseen | ⟨_, ⟨⟩⟩ := hseen.of_become
    obtain hseen | ⟨rfl, hm | hr⟩ := hseen.of_setHandle
      (s := { s with tracker := s.tracker.report (startError reason) }) hhandle
    · exact .inl (hseen.congr rfl rfl rfl rfl)
    · cases hm
    · cases hr
      exact .inr (by simp [Threads.refuse, hne])
  | register started =>
    obtain hseen | ⟨_, ⟨⟩⟩ := hseen.of_become
    exact .inl (hseen.congr rfl rfl rfl rfl)
  | finish own free outcome =>
    obtain hseen | ⟨_, ⟨⟩⟩ := hseen.of_become
    exact .inl hseen
  | @report id outcome own ending =>
    obtain hseen | ⟨_, ⟨⟩⟩ := hseen.of_become
    refine .inl (hseen.congr ?_ rfl rfl rfl)
    cases outcome <;> rfl
  | @send id result own sending =>
    obtain hseen | ⟨_, ⟨⟩⟩ := hseen.of_become
    cases hhandle : s.tracker.handle? id with
    | none =>
      rw [Tracker.send_eq_self hhandle] at hseen
      exact .inl hseen
    | some old =>
      rw [Tracker.send, hhandle] at hseen
      obtain hseen | ⟨rfl, hm | hr⟩ := hseen.of_setHandle hhandle
      · exact .inl hseen
      · cases hm
        exact .inr (by simp [Threads.send])
      · exact .inl (.handle hhandle (.inr hr))
  | await free spawned =>
    obtain hseen | ⟨_, ⟨⟩⟩ := hseen.of_become
    exact .inl hseen
  | look awaiting handle result =>
    obtain hseen | heq := hseen.of_conclude
    · exact .inl hseen
    · cases heq
      exact .inl (.handle handle (.inr result))
  | receive awaiting handle unstored message =>
    obtain ⟨_, hmessage, ⟨⟩⟩ := Option.map_eq_some_iff.mp message
    obtain hseen | ⟨_, ⟨⟩⟩ := hseen.of_become
    · obtain hseen | ⟨rfl, hm | hr⟩ := hseen.of_setHandle handle
      · exact .inl hseen
      · cases hm
      · exact .inl (.handle handle (.inr hr))
    · exact .inl (.handle handle (.inl hmessage))
  | store storing handle =>
    obtain hseen | heq := hseen.of_conclude
    · obtain hseen | ⟨rfl, hm | hr⟩ := hseen.of_setHandle handle
      · exact .inl hseen
      · exact .inl (.handle handle (.inl hm))
      · cases hr
        exact .inl (.storing storing)
    · cases heq
      exact .inl (.storing storing)
  | join free =>
    obtain hseen | ⟨_, ⟨⟩⟩ := hseen.of_become
    refine .inl (hseen.mono (fun _ hid _ => hid) rfl (fun c hc hfound => ⟨c, ?_, hfound⟩)
      fun hfound => hfound)
    -- The call that is new has found nothing yet.
    refine (List.mem_append.mp hc).resolve_right fun hnew => ?_
    cases List.mem_singleton.mp hnew
    cases hfound
  | take joining call done more =>
    refine .inl (hseen.mono (fun _ hid _ => hid) rfl (fun c hc hfound => ?_) fun hfound => hfound)
    obtain hc | rfl := List.mem_or_eq_of_mem_set hc
    · exact ⟨c, hc, hfound⟩
    · exact ⟨_, List.mem_of_getElem? call, hfound⟩
  | next joining call first =>
    obtain hseen | ⟨_, ⟨⟩⟩ := hseen.of_become
    exact .inl hseen
  | leave joining call done nothing =>
    obtain hseen | ⟨_, ⟨⟩⟩ := hseen.of_become
    exact .inl (hseen.congr rfl rfl rfl rfl)

/-! ## 3. Tasks that are dropped -/

theorem Step.dropped (hs : Step who s s') (hid : id ∈ s'.dropped) :
    id ∈ s.dropped ∨ s.tracker.isDone id = true := by
  cases hs with
  | register started =>
    obtain hid | hid := List.mem_append.mp hid
    · exact .inr (List.mem_filter.mp hid).2
    · exact .inl hid
  | @look _ purpose => cases purpose <;> exact .inl hid
  | @store _ purpose => cases purpose <;> exact .inl hid
  | _ => exact .inl hid

structure Delivered (s : Threads) : Prop where
  seen : ∀ id outcome, s.Seen id outcome → s.doing (.task id) = .over outcome
  dropped : ∀ id ∈ s.dropped, ∃ outcome, s.doing (.task id) = .over outcome

namespace Delivered

theorem initial : Delivered initial where
  seen id outcome h := by
    cases h with
    | handle hid => simp [Threads.initial, Tracker.empty, Tracker.handle?] at hid
    | @storing who purpose hstoring => cases who <;> nomatch hstoring
    | joined hc => nomatch hc
    | awaited hfound => nomatch hfound
  dropped _ h := nomatch h

theorem over_of_isDone (h : s.Delivered) (hid : s.tracker.isDone id = true) :
    ∃ outcome, s.doing (.task id) = .over outcome := by
  obtain ⟨handle, outcome, hhandle, hholds⟩ := Tracker.isDone_iff.mp hid
  exact ⟨outcome, h.seen id outcome (.handle hhandle hholds)⟩

protected theorem step (h : s.Delivered) (hn : s.Numbered) (hs : Step who s s') :
    s'.Delivered where
  seen id outcome hseen := by
    obtain hseen | hover := hs.seen hn hseen
    · exact hs.over_stable hn (h.seen id outcome hseen)
    · exact hover
  dropped id hid := by
    obtain ⟨outcome, hover⟩ : ∃ outcome, s.doing (.task id) = .over outcome :=
      (hs.dropped hid).elim (h.dropped id) h.over_of_isDone
    exact ⟨outcome, hs.over_stable hn hover⟩

end Delivered

end Threads

end Lisp
