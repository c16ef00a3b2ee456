import Lisp.Program
import Lisp.Proofs.Tasks.Ledger

/-!
# Announcements

The error of a task is announced by a call of the hook for such errors before anyone can come by it.
`Runs` keeps the calls of the hook in a run of the threads, each with the task that it is for, and
`Announced` is what holds of them at any time: the hook is called once for a task that ends in an
error, and never for another one.

An outcome that was sent is not lost: until it is stored in the handle of its task, it is in the
channel or with the thread that has received it, `Held`.  So whoever waits for a task that has ended
can be brought to find the outcome, `later_found`.
-/

namespace Lisp

def errorsOf : Outcome → List Error
  | .error e => [e]
  | .ok _ => []

namespace Activity

def ended? : Activity → Option Outcome
  | .ending outcome | .sending outcome | .over outcome => some outcome
  | _ => none

def reported : Activity → List Error
  | .sending outcome | .over outcome => errorsOf outcome
  | _ => []

end Activity

namespace Threads

variable {s s' s'' : Threads} {who t : Thread} {id : Nat} {outcome : Outcome} {purpose : Purpose}
  {evaluation : Nat → EStateM.Result Stop State Value} {calls calls' : List (Option Nat × Error)}

/-! ## 1. Calls of the hook -/

/-- The task that a thread acts for: the one that it starts, or else its own. -/
def subject (s : Threads) (who : Thread) : Option Nat :=
  match s.doing who, who with
  | .issued id, _ => some id
  | _, .task id => some id
  | _, .host _ => none

def Ends (s : Threads) (who : Thread) (s' : Threads) (id : Nat) (outcome : Outcome) : Prop :=
  who = .task id ∧ s.doing who = .free ∧ s'.doing who = .ending outcome

/-- Steps in sequence, in which the body of each task ends in what its evaluation comes to, with the
calls of the hook in them, the latest first. -/
inductive Runs (evaluation : Nat → EStateM.Result Stop State Value) (s : Threads) :
    List (Option Nat × Error) → Threads → Prop
  | refl : Runs evaluation s [] s
  | step {calls : List (Option Nat × Error)} {s' s'' : Threads} {who : Thread}
      (before : Runs evaluation s calls s') (step : Step who s' s'') (errors : List Error)
      (body : ∀ id outcome, Ends s' who s'' id outcome →
        Program.outcomeOf (evaluation id) = some outcome)
      (reports : s''.tracker.reports = errors ++ s'.tracker.reports) :
      Runs evaluation s (errors.map (fun e => (s'.subject who, e)) ++ calls) s''

def callsFor (id : Nat) (calls : List (Option Nat × Error)) : List Error :=
  calls.filterMap fun call => if call.1 = some id then some call.2 else none

theorem callsFor_append (id : Nat) (calls earlier : List (Option Nat × Error)) :
    callsFor id (calls ++ earlier) = callsFor id calls ++ callsFor id earlier :=
  List.filterMap_append

theorem callsFor_map (id : Nat) (subject : Option Nat) (errors : List Error) :
    callsFor id (errors.map fun e => (subject, e)) = if subject = some id then errors else [] := by
  rw [callsFor, List.filterMap_map]
  split
  next h => simp [h]
  next h => simp [h]

theorem Runs.later (h : s.Runs evaluation calls s') : s.Later s' := by
  induction h with
  | refl => exact .refl
  | step _ step _ _ _ ih => exact ih.step step

theorem Runs.trans (h : s.Runs evaluation calls s') (h' : s'.Runs evaluation calls' s'') :
    s.Runs evaluation (calls' ++ calls) s'' := by
  induction h' with
  | refl => exact h
  | step _ step errors body reports ih =>
    rw [List.append_assoc]
    exact ih.step step errors body reports

theorem Runs.quiet (h : s.Runs evaluation calls s') (hs : Step who s' s'')
    (hends : ∀ outcome, s''.doing who ≠ .ending outcome)
    (hreports : s''.tracker.reports = s'.tracker.reports) : s.Runs evaluation calls s'' :=
  h.step hs [] (fun _ outcome hend => absurd hend.2.2 (hends outcome)) hreports

/-- The hook is called for the task that the thread acts for, by the thread that ends it. -/
theorem Step.reports (hs : Step who s s') (hn : s.Numbered) :
    ∃ errors, s'.tracker.reports = errors ++ s.tracker.reports ∧
      ∀ id, (s'.doing (.task id)).reported =
        (if s.subject who = some id then errors else []) ++ (s.doing (.task id)).reported := by
  -- Most steps report nothing, and leave what was reported.
  have silent (hreports : s'.tracker.reports = s.tracker.reports)
      (hdoing : ∀ t, (s'.doing t).reported = (s.doing t).reported) :
      ∃ errors, s'.tracker.reports = errors ++ s.tracker.reports ∧
        ∀ id, (s'.doing (.task id)).reported =
          (if s.subject who = some id then errors else []) ++ (s.doing (.task id)).reported :=
    ⟨[], hreports, fun id => by rw [hdoing, ite_self, List.nil_append]⟩
  cases hs with
  | issue free => exact silent rfl (view_become Activity.reported (by rw [free]; rfl))
  | @start id issued =>
    have hborn : ∀ t, ((s.become (.task id) .free).doing t).reported = (s.doing t).reported :=
      view_become Activity.reported (by rw [hn.unborn who id issued]; rfl)
    refine silent rfl fun t => ?_
    rw [Threads.start, view_become Activity.reported (by rw [hborn, issued]; rfl), hborn]
  | @refuse started issued reason =>
    have hunborn := hn.unborn who started issued
    have hne : Thread.task started ≠ who := by
      rintro rfl
      simp [hunborn] at issued
    have hsubject : s.subject who = some started := by
      unfold subject
      rw [issued]
    refine ⟨[startError reason], rfl, fun id => ?_⟩
    rw [Threads.refuse, view_become Activity.reported (by simp [hne.symm, issued, Activity.reported]),
      doing_become, hsubject]
    by_cases hid : id = started
    · subst hid
      simp [hunborn, Activity.reported, errorsOf]
    · have hother : started ≠ id := fun h => hid h.symm
      simp [hid, hother]
  | register started => exact silent rfl (view_become Activity.reported (by rw [started]; rfl))
  | finish own free outcome => exact silent rfl (view_become Activity.reported (by rw [free]; rfl))
  | @report own outcome hown ending =>
    subst hown
    have hsubject : s.subject (.task own) = some own := by
      unfold subject
      rw [ending]
    refine ⟨errorsOf outcome, by cases outcome <;> rfl, fun id => ?_⟩
    change (if Thread.task id = .task own then .sending outcome else s.doing (.task id)).reported = _
    rw [hsubject]
    by_cases hid : id = own
    · subst hid
      simp [ending, Activity.reported]
    · have hother : own ≠ id := fun h => hid h.symm
      simp [hid, hother]
  | @send own outcome hown sending =>
    refine silent ?_ (view_become Activity.reported (by rw [← hown, sending]; rfl))
    rw [Threads.send, tracker_become, Tracker.send]
    split <;> rfl
  | await free => exact silent rfl (view_become Activity.reported (by rw [free]; rfl))
  | @look _ purpose _ _ awaiting =>
    cases purpose <;>
      exact silent rfl (view_become Activity.reported (by rw [awaiting]; rfl))
  | receive awaiting => exact silent rfl (view_become Activity.reported (by rw [awaiting]; rfl))
  | @store _ purpose _ _ storing =>
    cases purpose <;>
      exact silent rfl (view_become Activity.reported (by rw [storing]; rfl))
  | join free => exact silent rfl (view_become Activity.reported (by rw [free]; rfl))
  | take => exact silent rfl fun _ => rfl
  | next joining => exact silent rfl (view_become Activity.reported (by rw [joining]; rfl))
  | leave joining => exact silent rfl (view_become Activity.reported (by rw [joining]; rfl))

theorem Runs.callsFor_eq (h : s.Runs evaluation calls s') (hs : s.Reachable) (id : Nat) :
    callsFor id calls ++ (s.doing (.task id)).reported = (s'.doing (.task id)).reported := by
  induction h with
  | refl => rfl
  | @step calls s' s'' who before step errors body reports ih =>
    -- The errors of a step are those by which the reports of the tracker grow.
    obtain ⟨errors', hreports, hreported⟩ := step.reports (hs.later before.later).ledger.numbered
    have herrors : errors = errors' :=
      List.append_cancel_right (reports.symm.trans hreports)
    rw [callsFor_append, callsFor_map, List.append_assoc, ih, herrors, hreported]

theorem Runs.reports_eq (h : s.Runs evaluation calls s') :
    s'.tracker.reports = calls.map Prod.snd ++ s.tracker.reports := by
  induction h with
  | refl => rfl
  | step _ _ _ _ reports ih =>
    rw [reports, ih, List.map_append, List.map_map, List.append_assoc]
    simp [Function.comp_def]

/-! ## 2. Bodies that have ended -/

theorem Step.ended_stable (hs : Step who s s') (hn : s.Numbered)
    (hended : (s.doing (.task id)).ended? = some outcome) :
    (s'.doing (.task id)).ended? = some outcome := by
  by_cases hwho : who = .task id
  · subst hwho
    cases hs with
    | report own ending =>
      cases own
      rw [ending] at hended
      simpa [Threads.report, Activity.ended?] using hended
    | send own sending =>
      cases own
      rw [sending] at hended
      simpa [Threads.send, Activity.ended?] using hended
    | _ => simp_all [Activity.ended?]
  · have hstart : ∀ started, s.doing who = .issued started → Thread.task id ≠ .task started := by
      rintro started hissued ⟨⟩
      simp [hn.unborn who id hissued, Activity.ended?] at hended
    rw [hs.doing_eq (fun h => hwho h.symm) hstart, hended]

theorem Later.ended_stable (hl : s.Later s') (h : s.Reachable)
    (hended : (s.doing (.task id)).ended? = some outcome) :
    (s'.doing (.task id)).ended? = some outcome := by
  induction hl with
  | refl => exact hended
  | tail hl hs ih =>
    obtain ⟨_, hs⟩ := hs
    exact hs.ended_stable (h.later hl).ledger.numbered ih

theorem ended_of_become {a : Activity} (ha : a.ended? = none)
    (hended : ((s.become who a).doing t).ended? = some outcome) :
    (s.doing t).ended? = some outcome ∧ (s.become who a).doing t = s.doing t := by
  rw [doing_become] at hended
  split at hended
  next => simp [ha] at hended
  next hne => exact ⟨hended, if_neg hne⟩

/-- How the thread of a task comes to do what it does behind the end of the body: it has done so
before, or there is no thread for the task, or it takes one of its own three last steps. -/
theorem Step.ended_cases (hs : Step who s s')
    (hended : (s'.doing (.task id)).ended? = some outcome) :
    s'.doing (.task id) = s.doing (.task id) ∨
      (∃ reason, s.doing who = .issued id ∧ outcome = .error (startError reason) ∧
        s' = s.refuse who id reason) ∨
      Ends s who s' id outcome ∨
      (s.doing (.task id) = .ending outcome ∧ s' = s.report id outcome) ∨
      s.doing (.task id) = .sending outcome ∧ s' = s.send id outcome := by
  cases hs with
  | start issued =>
    obtain ⟨hborn, hstarter⟩ := ended_of_become rfl hended
    exact .inl (hstarter.trans (ended_of_become rfl hborn).2)
  | @refuse started issued reason =>
    obtain ⟨hrefused, hstarter⟩ := ended_of_become rfl hended
    by_cases hid : id = started
    · subst hid
      rw [doing_become, if_pos rfl] at hrefused
      cases hrefused
      exact .inr (.inl ⟨reason, issued, rfl, rfl⟩)
    · exact .inl (hstarter.trans (if_neg fun heq => hid (Thread.task.inj heq)))
  | @finish own howner free result =>
    rw [doing_become] at hended
    split at hended
    next heq =>
      cases hended
      exact .inr (.inr (.inl ⟨heq.symm, free, if_pos rfl⟩))
    next hne => exact .inl (if_neg hne)
  | @report own result howner ending =>
    by_cases hid : id = own
    · subst hid
      have hnow : (s.report id result).doing (.task id) = .sending result := if_pos rfl
      rw [hnow] at hended
      cases hended
      exact .inr (.inr (.inr (.inl ⟨by rw [← howner, ending], rfl⟩)))
    · exact .inl (if_neg fun heq => hid (Thread.task.inj heq))
  | @send own result howner sending =>
    by_cases hid : id = own
    · subst hid
      have hnow : (s.send id result).doing (.task id) = .over result := if_pos rfl
      rw [hnow] at hended
      cases hended
      exact .inr (.inr (.inr (.inr ⟨by rw [← howner, sending], rfl⟩)))
    · exact .inl (if_neg fun heq => hid (Thread.task.inj heq))
  | take => exact .inl rfl
  | @look _ purpose => cases purpose <;> exact .inl (ended_of_become rfl hended).2
  | @store _ purpose => cases purpose <;> exact .inl (ended_of_become rfl hended).2
  | _ => exact .inl (ended_of_become rfl hended).2

/-- At some time until now there was no thread for the task, for that reason. -/
def Refused (s : Threads) (id : Nat) (reason : String) : Prop :=
  ∃ (earlier : Threads) (who : Thread), earlier.Reachable ∧ earlier.doing who = .issued id ∧
    (earlier.refuse who id reason).Later s

theorem Refused.later {reason : String} (h : s.Refused id reason) (hl : s.Later s') :
    s'.Refused id reason := by
  obtain ⟨earlier, starter, hearlier, hissued, hrefused⟩ := h
  exact ⟨earlier, starter, hearlier, hissued, hrefused.trans hl⟩

theorem Step.ended (hs : Step who s s') (h : s.Reachable)
    (hended : (s'.doing (.task id)).ended? = some outcome) :
    (s.doing (.task id)).ended? = some outcome ∨ Ends s who s' id outcome ∨
      ∃ reason, s'.Refused id reason ∧ outcome = .error (startError reason) := by
  obtain hsame | ⟨reason, hissued, houtcome, rfl⟩ | hends | ⟨hending, -⟩ | ⟨hsending, -⟩ :=
    hs.ended_cases hended
  · exact .inl (hsame ▸ hended)
  · exact .inr (.inr ⟨reason, ⟨s, who, h, hissued, .refl⟩, houtcome⟩)
  · exact .inr (.inl hends)
  · exact .inl (by rw [hending]; rfl)
  · exact .inl (by rw [hsending]; rfl)

/-- The thread of a task whose body has ended can go on until the task is over, on its own. -/
theorem later_over (hended : (s.doing (.task id)).ended? = some outcome) :
    ∃ s', s.Later s' ∧ s'.doing (.task id) = .over outcome ∧
      ∀ t ≠ .task id, s'.doing t = s.doing t := by
  -- To send is the last step, before which an error is reported.
  have hsend {s : Threads} (hsending : s.doing (.task id) = .sending outcome) :
      ∃ s', s.Later s' ∧ s'.doing (.task id) = .over outcome ∧
        ∀ t ≠ .task id, s'.doing t = s.doing t :=
    ⟨_, (Step.send rfl hsending).later, if_pos rfl, fun _ ht => if_neg ht⟩
  match hdoing : s.doing (.task id), hended with
  | .ending _, rfl =>
    obtain ⟨s', hl, hover, hothers⟩ := hsend (s := s.report id outcome) (if_pos rfl)
    have hreported : s.Later (s.report id outcome) := (Step.report rfl hdoing).later
    exact ⟨s', hreported.trans hl, hover, fun t ht => (hothers t ht).trans (if_neg ht)⟩
  | .sending _, rfl => exact hsend hdoing
  | .over _, rfl => exact ⟨s, .refl, hdoing, fun _ _ => rfl⟩

/-! ## 3. No outcome is lost -/

/-- The outcome of a task is in its handle, or with a thread that has received it. -/
inductive Held (s : Threads) (id : Nat) (outcome : Outcome) : Prop
  | handle {h : Handle} (handle : s.tracker.handle? id = some h) (holds : h.Holds outcome)
  | storing {who : Thread} {purpose : Purpose}
      (storing : s.doing who = .storing id outcome purpose)

theorem Held.seen (h : s.Held id outcome) : s.Seen id outcome := by
  cases h with
  | handle hhandle hholds => exact .handle hhandle hholds
  | storing hstoring => exact .storing hstoring

theorem handle?_store {h : Handle} (hhandle : s.tracker.handle? id = some h) (who : Thread)
    (purpose : Purpose) (outcome : Outcome) :
    (s.store who id purpose outcome h).tracker.handle? id = some (h.store outcome) := by
  have hset := (Tracker.handle?_setHandle hhandle (h.store outcome) id).trans (if_pos rfl)
  cases purpose <;> exact hset

/-- The thread of a task that is being started has not begun to run, so there is no outcome yet. -/
theorem Ledger.not_issued (hl : s.Ledger) {h : Handle} (hhandle : s.tracker.handle? id = some h)
    (hholds : h.Holds outcome) : s.doing who ≠ .issued id := by
  intro issued
  have hover := hl.delivered.seen id outcome (.handle hhandle hholds)
  rw [hl.numbered.unborn who id issued] at hover
  cases hover

inductive Touches (who : Thread) (s s' : Threads) (id : Nat) (h : Handle) : Handle → Prop
  | same : Touches who s s' id h h
  | refuse {outcome : Outcome} (issued : s.doing who = .issued id) :
      Touches who s s' id h (Handle.running.store outcome)
  | send {outcome : Outcome} (sending : s.doing (.task id) = .sending outcome) :
      Touches who s s' id h (h.send outcome)
  | receive {outcome : Outcome} {purpose : Purpose} (unstored : h.result = none)
      (message : h.message = some outcome) (storing : s'.doing who = .storing id outcome purpose) :
      Touches who s s' id h { h with message := none }
  | store {outcome : Outcome} {purpose : Purpose}
      (storing : s.doing who = .storing id outcome purpose) :
      Touches who s s' id h (h.store outcome)

theorem Touches.of_setHandle {other : Nat} {h old new : Handle}
    (hhandle : s.tracker.handle? id = some h) (hother : s.tracker.handle? other = some old)
    (hnew : id = other → h = old → Touches who s s' id h new)
    (htracker : s'.tracker.handle? id = (s.tracker.setHandle other new).handle? id) :
    ∃ h', s'.tracker.handle? id = some h' ∧ Touches who s s' id h h' := by
  rw [Tracker.handle?_setHandle hother] at htracker
  by_cases hid : id = other
  · rw [if_pos hid] at htracker
    subst hid
    exact ⟨new, htracker, hnew rfl (Option.some.inj (hhandle.symm.trans hother))⟩
  · rw [if_neg hid] at htracker
    exact ⟨h, htracker.trans hhandle, .same⟩

theorem Step.touches (hs : Step who s s') (hn : s.Numbered) {h : Handle}
    (hhandle : s.tracker.handle? id = some h) :
    ∃ h', s'.tracker.handle? id = some h' ∧ Touches who s s' id h h' := by
  -- Most steps leave the handles alone.
  have same (hhandles : s'.tracker.handles = s.tracker.handles) :
      ∃ h', s'.tracker.handle? id = some h' ∧ Touches who s s' id h h' := by
    refine ⟨h, ?_, .same⟩
    rwa [Tracker.handle?, hhandles]
  cases hs with
  | issue free =>
    have hlt := (List.getElem?_eq_some_iff.mp (Tracker.handle?_eq_some_iff.mp hhandle).2).1
    have hid : id ≠ s.tracker.issue.1 := by
      change id ≠ s.tracker.handles.length + 1
      omega
    exact ⟨h, (Tracker.handle?_issue s.tracker id).trans (by rw [if_neg hid, hhandle]), .same⟩
  | @refuse started issued reason =>
    obtain ⟨old, hold⟩ := hn.exists_handle (hn.spawning who started (by rw [issued]; rfl)).1
    exact Touches.of_setHandle hhandle hold (fun hid _ => .refuse (hid ▸ issued)) rfl
  | @report own outcome hown ending => exact same (by cases outcome <;> rfl)
  | @send own outcome hown sending =>
    cases hsend : s.tracker.handle? own with
    | none => exact same (by rw [Threads.send, tracker_become, Tracker.send_eq_self hsend])
    | some old =>
      have hnew (hid : id = own) (hh : h = old) :
          Touches who s (s.send own outcome) id h (old.send outcome) :=
        hh ▸ .send (hid ▸ hown ▸ sending)
      refine Touches.of_setHandle hhandle hsend hnew ?_
      rw [Threads.send, tracker_become, Tracker.send, hsend]
  | @look _ purpose => cases purpose <;> exact same rfl
  | @receive other purpose old rest outcome awaiting handle unstored message =>
    obtain ⟨_, hmessage, ⟨⟩⟩ := Option.map_eq_some_iff.mp message
    refine Touches.of_setHandle hhandle handle (fun hid hh => ?_) rfl
    subst hid hh
    exact .receive unstored hmessage (if_pos rfl)
  | @store other purpose old outcome storing handle =>
    have hnew (s' : Threads) (hid : id = other) (hh : h = old) :
        Touches who s s' id h (old.store outcome) := by
      subst hid hh
      exact .store storing
    cases purpose <;> exact Touches.of_setHandle hhandle handle (hnew _) rfl
  | _ => exact same rfl

theorem Step.held_of_storing (hs : Step who s s') (hn : s.Numbered)
    (hstoring : s.doing t = .storing id outcome purpose) : s'.Held id outcome := by
  by_cases hwho : t = who
  · subst hwho
    cases hs with
    | @store _ _ h result storing handle =>
      rw [storing] at hstoring
      cases hstoring
      exact .handle (handle?_store handle _ purpose outcome) (.inr rfl)
    | _ => simp_all
  · have hstart : ∀ started, s.doing who = .issued started → t ≠ .task started := by
      rintro started hissued rfl
      simp [hn.unborn who started hissued] at hstoring
    exact .storing ((hs.doing_eq hwho hstart).trans hstoring)

theorem Step.held_of_handle (hs : Step who s s') (hl : s.Ledger) {h : Handle}
    (hhandle : s.tracker.handle? id = some h) (hholds : h.Holds outcome) : s'.Held id outcome := by
  have hover := hl.delivered.seen id outcome (.handle hhandle hholds)
  obtain ⟨h', hhandle', htouches⟩ := hs.touches hl.numbered hhandle
  cases htouches with
  | same => exact .handle hhandle' hholds
  | refuse issued => exact absurd issued (hl.not_issued hhandle hholds)
  | send sending =>
    -- A task that is over sends nothing more.
    rw [sending] at hover
    cases hover
  | receive unstored message storing =>
    obtain hm | hr := hholds
    · cases hm.symm.trans message
      exact .storing storing
    · cases hr.symm.trans unstored
  | store storing =>
    cases hover.symm.trans (hl.delivered.seen id _ (.storing storing))
    exact .handle hhandle' (.inr rfl)

theorem Step.held (hs : Step who s s') (hl : s.Ledger) (hheld : s.Held id outcome) :
    s'.Held id outcome := by
  cases hheld with
  | handle hhandle hholds => exact hs.held_of_handle hl hhandle hholds
  | storing hstoring => exact hs.held_of_storing hl.numbered hstoring

/-- A task is over when its outcome is sent, or when there is no thread for it. -/
theorem Step.held_of_over (hs : Step who s s') (hn : s.Numbered)
    (hover : s'.doing (.task id) = .over outcome) :
    s.doing (.task id) = .over outcome ∨ s'.Held id outcome := by
  have hended : (s'.doing (.task id)).ended? = some outcome := by rw [hover]; rfl
  obtain hsame | ⟨reason, issued, rfl, rfl⟩ | ⟨rfl, -, hending⟩ | ⟨-, rfl⟩ | ⟨hsending, rfl⟩ :=
    hs.ended_cases hended
  · exact .inl (hsame.symm.trans hover)
  · obtain ⟨old, hold⟩ := hn.exists_handle (hn.spawning who id (by rw [issued]; rfl)).1
    exact .inr (.handle ((Tracker.handle?_setHandle hold _ id).trans (if_pos rfl)) (.inr rfl))
  · cases hending.symm.trans hover
  · have hnow : (s.report id outcome).doing (.task id) = .sending outcome := if_pos rfl
    cases hnow.symm.trans hover
  · obtain ⟨starter, hstarter⟩ := hn.born id (by rw [hsending]; exact Activity.noConfusion)
    obtain ⟨old, hold⟩ := hn.exists_handle hstarter
    have hsend : s.tracker.send id outcome = s.tracker.setHandle id (old.send outcome) := by
      rw [Tracker.send, hold]
    refine .inr (.handle (h := old.send outcome) ?_ (.inl rfl))
    rw [Threads.send, tracker_become, hsend, Tracker.handle?_setHandle hold, if_pos rfl]

theorem Reachable.held (h : s.Reachable) (hover : s.doing (.task id) = .over outcome) :
    s.Held id outcome := by
  induction h with
  | initial => cases hover
  | step before who step ih =>
    -- The step either sends the outcome, or finds it held already and keeps it so.
    obtain hbefore | hheld := step.held_of_over before.ledger.numbered hover
    · exact step.held before.ledger (ih hbefore)
    · exact hheld

theorem Delivered.exists_await (hd : s.Delivered) {h : Handle}
    (hhandle : s.tracker.handle? id = some h) (hholds : h.Holds outcome) :
    ∃ t, s.tracker.await id = some (outcome, t) := by
  unfold Tracker.await
  rw [hhandle]
  simp only
  cases hresult : h.result with
  | some other =>
    have hover := hd.seen id outcome (.handle hhandle hholds)
    cases hover.symm.trans (hd.seen id other (.handle hhandle (.inr hresult)))
    exact ⟨_, rfl⟩
  | none =>
    have hmessage : h.message = some outcome := hholds.resolve_right (by simp [hresult])
    rw [Handle.receive, hmessage]
    exact ⟨_, rfl⟩

theorem Reachable.exists_store (h : s.Reachable)
    (hstoring : s.doing who = .storing id outcome purpose) :
    ∃ handle, s.tracker.handle? id = some handle ∧
      (s.store who id purpose outcome handle).tracker.handle? id = some (handle.store outcome) := by
  have hover := h.ledger.delivered.seen id outcome (.storing hstoring)
  obtain ⟨starter, hstarter⟩ := h.ledger.numbered.born id (by
    rw [hover]
    exact Activity.noConfusion)
  obtain ⟨handle, hhandle⟩ := h.ledger.numbered.exists_handle hstarter
  exact ⟨handle, hhandle, handle?_store hhandle who purpose outcome⟩

/-- Whoever waits for a task whose body has ended can be brought to find its outcome: by the thread of
the task, and by the one that has received the outcome, if there is one. -/
theorem Reachable.later_found (h : s.Reachable)
    (hended : (s.doing (.task id)).ended? = some outcome)
    (awaiting : s.doing who = .awaiting id purpose) :
    ∃ s', s.Later s' ∧ s'.Found who id outcome purpose := by
  -- It is enough to come to a state where the outcome is in the handle.
  have hfound {s' : Threads} {handle : Handle} (hl : s.Later s')
      (awaiting : s'.doing who = .awaiting id purpose)
      (hhandle : s'.tracker.handle? id = some handle) (hholds : handle.Holds outcome) :
      ∃ s', s.Later s' ∧ s'.Found who id outcome purpose := by
    have hledger := (h.later hl).ledger
    obtain ⟨t, hawait⟩ := hledger.delivered.exists_await hhandle hholds
    obtain ⟨s'', hl', hfound, -⟩ := later_await hledger.joined awaiting hawait
    exact ⟨s'', hl.trans hl', hfound⟩
  obtain ⟨s', hl, hover, hothers⟩ := later_over hended
  have hwho : who ≠ .task id := by
    rintro rfl
    rw [awaiting] at hended
    cases hended
  have awaiting' : s'.doing who = .awaiting id purpose := (hothers who hwho).trans awaiting
  have hs' := h.later hl
  cases hs'.held hover with
  | handle hhandle hholds => exact hfound hl awaiting' hhandle hholds
  | @storing t other hstoring =>
    -- Another thread has taken the outcome out of the channel: it stores the outcome first.
    obtain ⟨handle, hhandle, hstored⟩ := hs'.exists_store hstoring
    have ht : who ≠ t := by
      rintro rfl
      cases awaiting'.symm.trans hstoring
    exact hfound (hl.step (.store hstoring hhandle))
      ((doing_conclude_of_ne ht _ _ _).trans awaiting') hstored (.inr rfl)

/-! ## 4. Announced and delivered -/

structure Announced (evaluation : Nat → EStateM.Result Stop State Value) (s : Threads)
    (calls : List (Option Nat × Error)) : Prop where
  /-- The calls of the hook are the errors that the tracker has recorded. -/
  recorded : calls.map Prod.snd = s.tracker.reports
  /-- For a task that has reported an error there is one call, and for no other task there is any. -/
  once : ∀ id, callsFor id calls = (s.doing (.task id)).reported
  /-- A task ends in what its body evaluates to, where a panic counts as an error; but a task that
  there was no thread for ends in an error that says so. -/
  ended : ∀ id outcome, (s.doing (.task id)).ended? = some outcome →
    Program.outcomeOf (evaluation id) = some outcome ∨
      ∃ reason, s.Refused id reason ∧ outcome = .error (startError reason)
  /-- An outcome that anyone has come by, in a wait or in a call that joins, is the one that the task
  ended in, and if that is an error it was announced. -/
  found : ∀ id outcome, s.Seen id outcome →
    s.doing (.task id) = .over outcome ∧ callsFor id calls = errorsOf outcome
  /-- So it is with a task that can be seen to have ended. -/
  done : ∀ id, s.tracker.isDone id = true →
    ∃ outcome, s.doing (.task id) = .over outcome ∧ callsFor id calls = errorsOf outcome
  /-- So it is with a task that is dropped, now or in the next step. -/
  dropped : ∀ who s', Step who s s' → ∀ id ∈ s'.dropped,
    ∃ outcome, s.doing (.task id) = .over outcome ∧ callsFor id calls = errorsOf outcome
  /-- The outcome of a body does not change any more: it is what everyone comes by, and the hook has
  been called for it when they do, once if it is an error. -/
  settled : ∀ id outcome, (s.doing (.task id)).ended? = some outcome →
    ∀ later s', s.Runs evaluation later s' →
      (s'.doing (.task id)).ended? = some outcome ∧
      ∀ other, s'.Seen id other → other = outcome ∧ callsFor id (later ++ calls) = errorsOf outcome
  /-- Whoever waits for a task whose body has ended can be brought to find its outcome. -/
  returns : ∀ id outcome who purpose, (s.doing (.task id)).ended? = some outcome →
    s.doing who = .awaiting id purpose → ∃ s', s.Later s' ∧ s'.Found who id outcome purpose

theorem Runs.ended (h : initial.Runs evaluation calls s)
    (hended : (s.doing (.task id)).ended? = some outcome) :
    Program.outcomeOf (evaluation id) = some outcome ∨
      ∃ reason, s.Refused id reason ∧ outcome = .error (startError reason) := by
  induction h with
  | refl => cases hended
  | step before step _ body _ ih =>
    obtain hbefore | hends | hrefused := step.ended (Reachable.initial.later before.later) hended
    · obtain hbody | ⟨reason, hrefused, houtcome⟩ := ih hbefore
      · exact .inl hbody
      · exact .inr ⟨reason, hrefused.later step.later, houtcome⟩
    · exact .inl (body id outcome hends)
    · exact .inr hrefused

theorem Runs.callsFor_of_over (h : initial.Runs evaluation calls s)
    (hover : s.doing (.task id) = .over outcome) : callsFor id calls = errorsOf outcome := by
  have hcalls := h.callsFor_eq .initial id
  rw [hover] at hcalls
  exact (List.append_nil _).symm.trans hcalls

theorem Runs.announced (h : initial.Runs evaluation calls s) : s.Announced evaluation calls where
  recorded := by rw [h.reports_eq, initial, Tracker.empty, List.append_nil]
  once id := (List.append_nil _).symm.trans (h.callsFor_eq .initial id)
  ended id outcome := h.ended
  found id outcome hseen := by
    have hover := (Reachable.initial.later h.later).ledger.delivered.seen id outcome hseen
    exact ⟨hover, h.callsFor_of_over hover⟩
  done id hid := by
    obtain ⟨outcome, hover⟩ :=
      (Reachable.initial.later h.later).ledger.delivered.over_of_isDone hid
    exact ⟨outcome, hover, h.callsFor_of_over hover⟩
  dropped who s' hs id hid := by
    have hdelivered := (Reachable.initial.later h.later).ledger.delivered
    obtain ⟨outcome, hover⟩ : ∃ outcome, s.doing (.task id) = .over outcome :=
      (hs.dropped hid).elim (hdelivered.dropped id) hdelivered.over_of_isDone
    exact ⟨outcome, hover, h.callsFor_of_over hover⟩
  settled id outcome hended later s' hlater := by
    have hreachable := Reachable.initial.later h.later
    have hended' := hlater.later.ended_stable hreachable hended
    refine ⟨hended', fun other hseen => ?_⟩
    have hover := (hreachable.later hlater.later).ledger.delivered.seen id other hseen
    rw [hover] at hended'
    cases hended'
    exact ⟨rfl, (h.trans hlater).callsFor_of_over hover⟩
  returns id outcome who purpose hended awaiting :=
    (Reachable.initial.later h.later).later_found hended awaiting

/-- Under every interleaving of threads the errors of tasks are announced and their outcomes are
delivered; and to start a task is to go on at once, with nil and with the frames as they are.  This is
so for a thread of the host and for one of a task: where its tracker is the common one, the steps by
which it starts a task lead to the tracker that the evaluation ends with, and to a thread that has begun
to run and a task that is tracked. -/
theorem outcomes_announced_and_delivered (h : initial.Runs evaluation calls s) :
    s.Announced evaluation calls ∧
    ∀ config levels body t,
      Interpreter.interpret config (levels + 1) (.run (.spawn body)) t =
        .ok .nil ⟨t.stack, (t.world.spawn t.stack body).2⟩ ∧
      ∀ who, s.doing who = .free → t.world.tasks = s.tracker →
        ∃ s', s.Later s' ∧ s'.doing who = .free ∧
          s'.doing (.task (t.world.spawn t.stack body).1) = .free ∧
          s'.spawned = (t.world.spawn t.stack body).1 :: s.spawned ∧
          s'.tracker = (t.world.spawn t.stack body).2.tasks := by
  refine ⟨h.announced, fun config levels body t => ⟨?_, fun who free hw => ?_⟩⟩
  · rw [Interpreter.interpret_succ]
    rfl
  · exact later_spawn free hw t.stack body

/-- The host starts a task and waits for it.  The body panics, and the panic is announced. -/
theorem panic_announced_and_delivered : ∃ evaluation s,
    initial.Runs evaluation [(some 1, .taskPanic "boom")] s ∧
    evaluation 1 = .error (.panic (some "boom")) default ∧
    s.awaited = [(1, .error (.taskPanic "boom"))] ∧
    s.Announced evaluation [(some 1, .taskPanic "boom")] := by
  let evaluation : Nat → EStateM.Result Stop State Value :=
    fun _ => .error (.panic (some "boom")) default
  let outcome : Outcome := .error (.taskPanic "boom")
  have h : initial.Runs evaluation [] _ := Runs.refl
    |>.quiet (.issue rfl : Step (.host 0) _ _) nofun rfl
    |>.quiet (.start rfl : Step (.host 0) _ _) nofun rfl
    |>.quiet (.register rfl : Step (.host 0) _ _) nofun rfl
    |>.quiet (.await rfl List.mem_cons_self : Step (.host 0) _ _) nofun rfl
  have h := h
    |>.step (.finish rfl rfl outcome : Step (.task 1) _ _) []
      (fun _ _ hend => by cases hend.1; cases hend.2.2; rfl) rfl
    |>.step (.report rfl rfl : Step (.task 1) _ _) [.taskPanic "boom"]
      (fun _ _ hend => nomatch hend.2.1) rfl
    |>.quiet (.send rfl rfl : Step (.task 1) _ _) nofun rfl
    |>.quiet (.receive rfl rfl rfl rfl : Step (.host 0) _ _) nofun rfl
    |>.quiet (.store rfl rfl : Step (.host 0) _ _) nofun rfl
  exact ⟨evaluation, _, h, rfl, rfl, (outcomes_announced_and_delivered h).1⟩

end Threads

end Lisp
