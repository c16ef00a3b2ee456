import Lisp.Proofs.Tasks.Announcements

/-!
# Seeing that a task is done

Who asks whether a task is done looks into the cell of its handle, and if that is empty, a while later
into the channel: `Asks`.  Who waits for the task takes the outcome out of the channel and then stores
it in the cell.  In between the outcome is in neither place, and a task that was seen to be done is
not seen so, `completion_out_of_sight`.

There is no other way for that to happen, `Reachable.completion_seen_again`.  The thread that has
received the outcome puts an end to it by its next step, and before any wait returns: what is stored
in a cell stays there.
-/

namespace Lisp

namespace Threads

variable {s s' t t' : Threads} {who : Thread} {id : Nat} {outcome : Outcome} {purpose : Purpose}
  {answer : Bool}

/-! ## 1. Asking -/

/-- A call that asks whether a task is done, from the state that it begins in to the one that it ends
in, with its answer. -/
inductive Asks (s : Threads) (id : Nat) : Threads → Bool → Prop
  | cell {h : Handle} {outcome : Outcome} (handle : s.tracker.handle? id = some h)
      (result : h.result = some outcome) : Asks s id s true
  /-- The threads may take steps between the look into the cell and the one into the channel. -/
  | channel {s' : Threads} {h h' : Handle} (handle : s.tracker.handle? id = some h)
      (empty : h.result = none) (later : s.Later s')
      (handle' : s'.tracker.handle? id = some h') : Asks s id s' h'.message.isSome

/-- When no thread takes a step meanwhile, the answer is whether the outcome is in either place. -/
theorem asks_isDone {h : Handle} (hhandle : s.tracker.handle? id = some h) :
    s.Asks id s (s.tracker.isDone id) := by
  have hdone : s.tracker.isDone id = h.isDone := by rw [Tracker.isDone, hhandle, Option.any_some]
  rw [hdone, Handle.isDone]
  cases hresult : h.result with
  | some outcome => exact .cell hhandle hresult
  | none => exact .channel hhandle hresult .refl hhandle

/-- A thread has received the outcome of the task and not stored it yet. -/
def InTransit (s : Threads) (id : Nat) : Prop :=
  ∃ who outcome purpose, s.doing who = .storing id outcome purpose

def Stored (s : Threads) (id : Nat) (outcome : Outcome) : Prop :=
  ∃ h, s.tracker.handle? id = some h ∧ h.result = some outcome

theorem Asks.later (h : s.Asks id s' answer) : s.Later s' := by
  cases h with
  | cell => exact .refl
  | channel _ _ later => exact later

theorem Asks.held (h : s.Asks id s' true) : ∃ outcome, s'.Held id outcome := by
  generalize hanswer : true = answer at h
  cases h with
  | cell handle result => exact ⟨_, .handle handle (.inr result)⟩
  | channel handle empty later handle' =>
    obtain ⟨outcome, hmessage⟩ := Option.isSome_iff_exists.mp hanswer.symm
    exact ⟨outcome, .handle handle' (.inl hmessage)⟩

theorem Stored.asked (h : s.Stored id outcome) (hasks : s.Asks id s' answer) : answer = true := by
  obtain ⟨handle, hhandle, hresult⟩ := h
  cases hasks with
  | cell => rfl
  | channel hhandle' empty =>
    cases hhandle.symm.trans hhandle'
    cases hresult.symm.trans empty

/-! ## 2. Outcomes that are stored -/

theorem Step.stored (hs : Step who s s') (hl : s.Ledger) (h : s.Stored id outcome) :
    s'.Stored id outcome := by
  obtain ⟨handle, hhandle, hresult⟩ := h
  have hover := hl.delivered.seen id outcome (.handle hhandle (.inr hresult))
  obtain ⟨handle', hhandle', htouches⟩ := hs.touches hl.numbered hhandle
  refine ⟨handle', hhandle', ?_⟩
  cases htouches with
  | same => exact hresult
  | refuse issued => exact absurd issued (hl.not_issued hhandle (.inr hresult))
  | send => exact hresult
  | receive unstored => cases hresult.symm.trans unstored
  | store storing =>
    cases hover.symm.trans (hl.delivered.seen id _ (.storing storing))
    rfl

theorem Later.stored (hl : s.Later s') (h : s.Reachable) (hstored : s.Stored id outcome) :
    s'.Stored id outcome := by
  induction hl with
  | refl => exact hstored
  | tail hl hs ih =>
    obtain ⟨_, hs⟩ := hs
    exact hs.stored (h.later hl).ledger ih

/-- A wait has ended with the outcome of the task: one for that task alone, or one of a call that
joins. -/
inductive Returned (s : Threads) (id : Nat) (outcome : Outcome) : Prop
  | single (found : (id, outcome) ∈ s.awaited)
  | joined {c : JoinCall} (call : c ∈ s.joins) (found : (id, outcome) ∈ c.results)

namespace Returned

theorem congr (h : s'.Returned id outcome) (joins : s'.joins = s.joins)
    (awaited : s'.awaited = s.awaited) : s.Returned id outcome := by
  cases h with
  | single found => exact .single (awaited ▸ found)
  | joined call found => exact .joined (joins ▸ call) found

theorem of_conclude {other : Nat} {result : Outcome}
    (h : (s.conclude who other result purpose).Returned id outcome) :
    s.Returned id outcome ∨ (id, outcome) = (other, result) := by
  cases purpose with
  | single =>
    cases h with
    | single found =>
      obtain heq | found := List.mem_cons.mp found
      · exact .inr heq
      · exact .inl (.single found)
    | joined call found => exact .inl (.joined call found)
  | join n =>
    cases h with
    | single found => exact .inl (.single found)
    | joined call found =>
      obtain ⟨d, hd, hfound⟩ | heq := JoinCall.result_of_modify call found
      · exact .inl (.joined hd hfound)
      · exact .inr heq

end Returned

theorem Step.returned (hs : Step who s s') (hl : s.Ledger) (h : s'.Returned id outcome) :
    s.Returned id outcome ∨ s'.Stored id outcome := by
  cases hs with
  | @look other purpose handle result awaiting hhandle hresult =>
    obtain hbefore | heq := h.of_conclude
    · exact .inl hbefore
    · cases heq
      exact .inr ((Step.look awaiting hhandle hresult).stored hl ⟨handle, hhandle, hresult⟩)
  | @store other purpose handle result storing hhandle =>
    obtain hbefore | heq := h.of_conclude
    · exact .inl (hbefore.congr rfl rfl)
    · cases heq
      exact .inr ⟨_, handle?_store hhandle who purpose outcome, rfl⟩
  | join =>
    cases h with
    | single found => exact .inl (.single found)
    | joined call found =>
      -- The call that is new has found nothing yet.
      obtain hbefore | hnew := List.mem_append.mp call
      · exact .inl (.joined hbefore found)
      · cases List.mem_singleton.mp hnew
        cases found
  | take joining call =>
    cases h with
    | single found => exact .inl (.single found)
    | joined hc found =>
      obtain hbefore | rfl := List.mem_or_eq_of_mem_set hc
      · exact .inl (.joined hbefore found)
      · exact .inl (.joined (List.mem_of_getElem? call) found)
  | _ => exact .inl (h.congr rfl rfl)

theorem Reachable.stored (h : s.Reachable) (hreturned : s.Returned id outcome) :
    s.Stored id outcome := by
  induction h with
  | initial => cases hreturned <;> contradiction
  | step before who step ih =>
    obtain hbefore | hstored := step.returned before.ledger hreturned
    · exact step.stored before.ledger (ih hbefore)
    · exact hstored

/-! ## 3. Out of sight -/

theorem Step.message (hs : Step who s s') (hl : s.Ledger) {h : Handle}
    (hhandle : s.tracker.handle? id = some h) (hmessage : h.message.isSome = true) :
    (∃ h', s'.tracker.handle? id = some h' ∧ h'.message.isSome = true) ∨ s'.InTransit id := by
  obtain ⟨h', hhandle', htouches⟩ := hs.touches hl.numbered hhandle
  cases htouches with
  | same => exact .inl ⟨_, hhandle', hmessage⟩
  | refuse issued =>
    obtain ⟨outcome, hsome⟩ := Option.isSome_iff_exists.mp hmessage
    exact absurd issued (hl.not_issued hhandle (.inl hsome))
  | send => exact .inl ⟨_, hhandle', rfl⟩
  | receive unstored message storing => exact .inr ⟨_, _, _, storing⟩
  | store => exact .inl ⟨_, hhandle', hmessage⟩

theorem Later.message (hl : s.Later s') (h : s.Reachable) {handle : Handle}
    (hhandle : s.tracker.handle? id = some handle) (hmessage : handle.message.isSome = true) :
    (∃ h', s'.tracker.handle? id = some h' ∧ h'.message.isSome = true) ∨
      ∃ m, s.Later m ∧ m.Later s' ∧ m.InTransit id := by
  induction hl with
  | refl => exact .inl ⟨handle, hhandle, hmessage⟩
  | tail hl hs ih =>
    obtain ⟨who, hs⟩ := hs
    obtain ⟨h', hhandle', hmessage'⟩ | ⟨m, hbefore, hafter, htransit⟩ := ih
    · obtain hkept | htransit := hs.message (h.later hl).ledger hhandle' hmessage'
      · exact .inl hkept
      · exact .inr ⟨_, Later.step hl hs, .refl, htransit⟩
    · exact .inr ⟨m, hbefore, hafter.step hs, htransit⟩

/-- An outcome that is held is denied only if it is out of sight for a moment. -/
theorem Held.asked (hheld : s.Held id outcome) (h : s.Reachable) (hasks : s.Asks id s' answer) :
    answer = true ∨ ∃ m, s.Later m ∧ m.Later s' ∧ m.InTransit id := by
  cases hasks with
  | cell => exact .inl rfl
  | channel handle empty later handle' =>
    cases hheld with
    | storing storing => exact .inr ⟨s, .refl, later, _, _, _, storing⟩
    | handle hhandle hholds =>
      cases handle.symm.trans hhandle
      have hmessage : Option.isSome _ = true :=
        Option.isSome_iff_exists.mpr ⟨outcome, hholds.resolve_right (by simp [empty])⟩
      obtain ⟨h', hhandle', hmessage'⟩ | hout := later.message h hhandle hmessage
      · cases handle'.symm.trans hhandle'
        exact .inl hmessage'
      · exact .inr hout

/-- Once it was said of a task that it is done, this is denied only if some thread has received its
outcome and not stored it yet, at a moment of the call.  That thread can store the outcome next; from
then on, and so from the end of any wait on, the task is said to be done whoever asks. -/
theorem Reachable.completion_seen_again (h : s.Reachable) (first : s.Asks id s' true)
    (hl : s'.Later t) (again : t.Asks id t' answer) :
    (answer = true ∨ ∃ m, t.Later m ∧ m.Later t' ∧ m.InTransit id) ∧
      (∀ m who outcome purpose, t.Later m → m.doing who = .storing id outcome purpose →
        ∃ m', Step who m m' ∧ ∀ u u' last, m'.Later u → u.Asks id u' last → last = true) ∧
      ∀ outcome, t.Returned id outcome → answer = true := by
  have hs' := h.later first.later
  have ht := hs'.later hl
  refine ⟨?_, fun m who outcome purpose hm hstoring => ?_, fun outcome hreturned => ?_⟩
  · obtain ⟨outcome, hheld⟩ := first.held
    have hover := hs'.ledger.delivered.seen id outcome hheld.seen
    exact (ht.held (hl.over_stable hs' hover)).asked ht again
  · have hreachable := ht.later hm
    obtain ⟨handle, hhandle, hset⟩ := hreachable.exists_store hstoring
    have hstep := Step.store hstoring hhandle
    have hstored : (m.store who id purpose outcome handle).Stored id outcome := ⟨_, hset, rfl⟩
    exact ⟨_, hstep, fun u u' last hu hlast =>
      (hu.stored (hreachable.step who hstep) hstored).asked hlast⟩
  · exact (ht.stored hreturned).asked again

/-! ## 4. A task that is waited for -/

theorem exists_sent : ∃ s : Threads, s.Reachable ∧ s.doing (.host 1) = .free ∧ 1 ∈ s.spawned ∧
    s.tracker.handle? 1 = some ⟨some (.ok .nil), none⟩ := by
  have h := Reachable.initial
    |>.step (.host 0) (.issue rfl)
    |>.step (.host 0) (.start rfl)
    |>.step (.host 0) (.register rfl)
    |>.step (.task 1) (.finish rfl rfl (.ok .nil))
    |>.step (.task 1) (.report rfl rfl)
    |>.step (.task 1) (.send rfl rfl)
  exact ⟨_, h, rfl, List.mem_singleton_self 1, rfl⟩

theorem exists_received : ∃ s t : Threads, s.Reachable ∧ s.Later t ∧
    s.tracker.handle? 1 = some ⟨some (.ok .nil), none⟩ ∧
    t.tracker.handle? 1 = some ⟨none, none⟩ ∧
    t.doing (.host 1) = .storing 1 (.ok .nil) .single := by
  obtain ⟨s, h, hfree, hspawned, hhandle⟩ := exists_sent
  have hawaiting : (s.become (.host 1) (.awaiting 1 .single)).doing (.host 1) =
      .awaiting 1 .single := rfl
  have hreceive := (Step.await hfree hspawned).later.step (.receive hawaiting hhandle rfl rfl)
  refine ⟨s, _, h, hreceive, hhandle, ?_, rfl⟩
  exact (Tracker.handle?_setHandle hhandle _ 1).trans (if_pos rfl)

/-- A task that can be seen to be done cannot be seen so any more, for a moment of every wait that
receives its outcome, even by a call that looks into both places at once. -/
theorem completion_out_of_sight : ∃ s t : Threads, s.Reachable ∧ s.tracker.isDone 1 = true ∧
    s.Later t ∧ t.tracker.isDone 1 = false := by
  obtain ⟨s, t, h, hl, hs, ht, -⟩ := exists_received
  refine ⟨s, t, h, ?_, hl, ?_⟩
  · rw [Tracker.isDone, hs]
    rfl
  · rw [Tracker.isDone, ht]
    rfl

/-- The task is said not to be done while its outcome is with the thread that waits for it, and said
to be done for good once that thread has stored it. -/
theorem Reachable.completion_seen_again_behind_store : ∃ s t : Threads, s.Reachable ∧
    s.Asks 1 s true ∧ s.Later t ∧ t.Asks 1 t false ∧
    (∃ m, t.Later m ∧ m.Later t ∧ m.InTransit 1) ∧
    ∃ t', Step (.host 1) t t' ∧ ∀ u u' last, t'.Later u → u.Asks 1 u' last → last = true := by
  obtain ⟨s, t, h, hl, hs, ht, hstoring⟩ := exists_received
  have hfirst : s.Asks 1 s true := by
    have hasks := asks_isDone hs
    rwa [Tracker.isDone, hs] at hasks
  have hagain : t.Asks 1 t false := by
    have hasks := asks_isDone ht
    rwa [Tracker.isDone, ht] at hasks
  obtain ⟨hout, hstore, -⟩ := h.completion_seen_again hfirst hl hagain
  exact ⟨s, t, h, hfirst, hl, hagain, hout.resolve_left Bool.false_ne_true,
    hstore t _ _ _ .refl hstoring⟩

end Threads

end Lisp
