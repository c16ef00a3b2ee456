import Lisp.Proofs.Tasks.Places
import Lisp.World

/-!
# Tasks under every interleaving

What the invariants say of all states that threads can reach.  No task that has been tracked is lost
and none is found twice (`Reachable.accounted`), and a call that joins does not return while a task
runs that could start another one (`Reachable.quiescent`).

The operations of a program that runs one thread at a time are runs of the steps with no other
thread between them.
-/

namespace Lisp

namespace Threads

variable {s s' : Threads} {who : Thread} {id n : Nat} {outcome : Outcome}

/-! ## 1. Runs -/

structure Ledger (s : Threads) : Prop where
  numbered : s.Numbered
  delivered : s.Delivered
  joined : s.Joined
  placed : s.Placed

theorem Reachable.ledger (h : s.Reachable) : s.Ledger := by
  induction h with
  | initial => exact ⟨.initial, .initial, .initial, .initial⟩
  | step before who step ih =>
    obtain ⟨hn, hd, hj, hp⟩ := ih
    exact ⟨hn.step step, hd.step hn step, hj.step hn step, hp.step hn hj step⟩

def Later : Threads → Threads → Prop :=
  Relation.ReflTransGen fun s s' => ∃ who, Step who s s'

theorem Step.later (hs : Step who s s') : s.Later s' := .single ⟨who, hs⟩

theorem Later.step (h : s.Later s') {s'' : Threads} (hs : Step who s' s'') : s.Later s'' :=
  .tail h ⟨who, hs⟩

theorem Reachable.later (h : s.Reachable) (hl : s.Later s') : s'.Reachable := by
  induction hl with
  | refl => exact h
  | tail _ hs ih =>
    obtain ⟨who, hs⟩ := hs
    exact ih.step who hs

theorem Later.over_stable (hl : s.Later s') (h : s.Reachable)
    (hover : s.doing (.task id) = .over outcome) : s'.doing (.task id) = .over outcome := by
  induction hl with
  | refl => exact hover
  | tail hl hs ih =>
    obtain ⟨_, hs⟩ := hs
    exact hs.over_stable (h.later hl).ledger.numbered ih

/-! ## 2. One thread at a time -/

/-- A thread starts a task, and nobody else takes a step before it is tracked. -/
theorem later_spawn (free : s.doing who = .free) {w : World} (hw : w.tasks = s.tracker)
    (stack : Stack) (body : Value) :
    ∃ s', s.Later s' ∧ s'.doing who = .free ∧
      s'.doing (.task (w.spawn stack body).1) = .free ∧
      s'.spawned = (w.spawn stack body).1 :: s.spawned ∧
      s'.tracker = (w.spawn stack body).2.tasks := by
  let id := s.tracker.issue.1
  have hissued : (s.issue who).doing who = .issued id := if_pos rfl
  have hstarted : ((s.issue who).start who id).doing who = .started id := if_pos rfl
  have hrun := ((Step.issue free).later.step (.start hissued)).step (.register hstarted)
  have hborn : (((s.issue who).start who id).register who id).doing (.task id) = .free := by
    simp [register, start]
  rw [World.spawn, hw]
  exact ⟨_, hrun, if_pos rfl, hborn, rfl, rfl⟩

/-- The body of a task ends, and nobody else takes a step before the outcome is sent. -/
theorem later_finish (free : s.doing (.task id) = .free) (outcome : Outcome) :
    ∃ s', s.Later s' ∧ s'.doing (.task id) = .over outcome ∧
      s'.tracker = s.tracker.finish id outcome := by
  let ended := s.become (.task id) (.ending outcome)
  have hending : ended.doing (.task id) = .ending outcome := if_pos rfl
  have hsending : (ended.report id outcome).doing (.task id) = .sending outcome := if_pos rfl
  have hrun := ((Step.finish rfl free outcome).later.step (.report rfl hending)).step
    (.send rfl hsending)
  refine ⟨_, hrun, if_pos rfl, ?_⟩
  cases outcome <;> rfl

def Found (s : Threads) (who : Thread) (id : Nat) (outcome : Outcome) : Purpose → Prop
  | .single => s.doing who = .free ∧ (id, outcome) ∈ s.awaited
  | .join n => s.doing who = .joining n ∧ ∃ c, s.joins[n]? = some c ∧ (id, outcome) ∈ c.results

theorem found_conclude {purpose : Purpose} (hcall : ∀ n, purpose = .join n → ∃ c, s.joins[n]? = some c)
    (id : Nat) (outcome : Outcome) :
    (s.conclude who id outcome purpose).Found who id outcome purpose := by
  cases purpose with
  | single => exact ⟨if_pos rfl, List.mem_cons_self⟩
  | join n =>
    obtain ⟨c, hc⟩ := hcall n rfl
    refine ⟨if_pos rfl, c.found id outcome, ?_, List.mem_append_right _ List.mem_cons_self⟩
    simp [conclude, hc]

/-- A thread waits for a task whose outcome can be seen, and nobody else takes a step before it has
the outcome. -/
theorem later_await {t : Tracker} {purpose : Purpose} (hj : s.Joined)
    (awaiting : s.doing who = .awaiting id purpose) (h : s.tracker.await id = some (outcome, t)) :
    ∃ s', s.Later s' ∧ s'.Found who id outcome purpose ∧ s'.tracker = t := by
  have hcall : ∀ n, purpose = .join n → ∃ c, s.joins[n]? = some c := by
    rintro n rfl
    obtain ⟨c, hc, -⟩ := hj.caller who n _ (by rw [awaiting]; rfl)
    exact ⟨c, hc⟩
  have htracker (s : Threads) : (s.conclude who id outcome purpose).tracker = s.tracker := by
    cases purpose <;> rfl
  unfold Tracker.await at h
  split at h
  next => cases h
  next handle hhandle =>
    split at h
    next result hresult =>
      cases h
      exact ⟨_, (Step.look awaiting hhandle hresult).later, found_conclude hcall id outcome,
        htracker s⟩
    next hresult =>
      obtain ⟨⟨result, rest⟩, hreceive, ⟨⟩⟩ := Option.map_eq_some_iff.mp h
      let received := s.receive who id purpose outcome rest
      have hstoring : received.doing who = .storing id outcome purpose := if_pos rfl
      have hrest : received.tracker.handle? id = some rest :=
        (Tracker.handle?_setHandle hhandle rest id).trans (if_pos rfl)
      have hrun := (Step.receive awaiting hhandle hresult hreceive).later.step
        (.store hstoring hrest)
      have hfound : (received.store who id purpose outcome rest).Found who id outcome purpose := by
        apply found_conclude
        exact hcall
      refine ⟨_, hrun, hfound, (htracker _).trans ?_⟩
      exact Tracker.setHandle_setHandle s.tracker id rest (rest.store outcome)

/-! ## 3. Every task is accounted for -/

structure Accounted (s : Threads) : Prop where
  /-- No two tasks have the same number, as a word of 64 bits. -/
  numbers : (s.issued.map fun entry => UInt64.ofNat entry.1).Nodup
  /-- A task that was started is in one place, and there once. -/
  placed : ∀ id who, (id, who) ∈ s.issued → (s.doing who).spawning? ≠ some id →
    s.places.count id = 1
  /-- A task is dropped only when its outcome can be seen. -/
  dropped : ∀ who s', Step who s s' → ∀ id ∈ s'.dropped,
    id ∈ s.dropped ∨ s.tracker.isDone id = true
  /-- A task that is dropped is over. -/
  ended : ∀ id ∈ s.dropped, ∃ outcome, s.doing (.task id) = .over outcome
  /-- All calls that join find one outcome of a task at most. -/
  results : ((s.joins.flatMap JoinCall.results).map Prod.fst).Nodup
  /-- Whoever waits for a task finds the outcome that a call which joins has found. -/
  agree : ∀ id outcome, (id, outcome) ∈ s.joins.flatMap JoinCall.results →
    ∀ s' other, s.Later s' → (id, other) ∈ s'.awaited → other = outcome

theorem Numbered.nodup_words (h : s.Numbered) (hcount : s.issued.length < 2 ^ 64) :
    (s.issued.map fun entry => UInt64.ofNat entry.1).Nodup := by
  have hlength : s.tracker.handles.length = s.issued.length := by
    simpa using (congrArg List.length h.numbers).symm
  refine (List.Nodup.of_map _ h.nodup).map_on fun e he e' he' hword => ?_
  have hlt : ∀ e ∈ s.issued, e.1 < UInt64.size := fun e he => by
    have := (h.bounds he).2
    rw [UInt64.size]
    omega
  have hnumber : e.1 = e'.1 := by
    have := congrArg UInt64.toNat hword
    rwa [UInt64.toNat_ofNat_of_lt' (hlt e he), UInt64.toNat_ofNat_of_lt' (hlt e' he')] at this
  exact List.inj_on_of_nodup_map h.nodup he he' hnumber

theorem Placed.nodup_places (h : s.Placed) : s.places.Nodup := h.perm.nodup_iff.mpr h.once

/-- No task that has been tracked is lost, and none is found twice. -/
theorem Reachable.accounted (h : s.Reachable) (hcount : s.issued.length < 2 ^ 64) :
    s.Accounted where
  numbers := h.ledger.numbered.nodup_words hcount
  placed id who hid hwho := by
    have hspawned := (h.ledger.numbered.pending id who hid).resolve_right hwho
    exact List.count_eq_one_of_mem h.ledger.placed.nodup_places
      (h.ledger.placed.perm.mem_iff.mpr hspawned)
  dropped who s' hs id hid := hs.dropped hid
  ended := h.ledger.delivered.dropped
  results := by
    have htasks : (s.joins.flatMap JoinCall.tasks).Nodup :=
      h.ledger.placed.nodup_places.of_append_left.of_append_right
    have hsublist : (s.joins.flatMap fun c => c.results.map Prod.fst).Sublist
        (s.joins.flatMap JoinCall.tasks) :=
      .flatMap_right s.joins fun c _ => List.sublist_append_right c.batch _
    rw [List.map_flatMap]
    exact htasks.sublist hsublist
  agree id outcome hfound s' other hl hawaited := by
    obtain ⟨c, hc, hfound⟩ := List.mem_flatMap.mp hfound
    have hover := hl.over_stable h (h.ledger.delivered.seen id outcome (.joined hc hfound))
    have hother := (h.later hl).ledger.delivered.seen id other (.awaited hawaited)
    cases hother.symm.trans hover
    rfl

/-- The host starts five tasks on three threads.  The first one is waited for while another task is
tracked, the fourth one ends before the last one is tracked, and two calls join. -/
theorem exists_overlapping : ∃ s : Threads, s.Reachable ∧ s.issued.length = 5 ∧
    s.tracker.tracked = [] ∧ s.dropped = [4] ∧ s.awaited = [(1, .ok .nil)] ∧
    s.joins = [⟨.host 0, [2, 3], [(1, .ok .nil)]⟩, ⟨.host 2, [5], []⟩] := by
  have h := Reachable.initial
    |>.step (.host 0) (.issue rfl)
    |>.step (.host 0) (.start rfl)
    |>.step (.host 1) (.issue rfl)
    |>.step (.host 0) (.register rfl)
    |>.step (.host 1) (.start rfl)
    |>.step (.host 1) (.register rfl)
    |>.step (.task 1) (.finish rfl rfl (.ok .nil))
    |>.step (.task 1) (.report rfl rfl)
    |>.step (.task 1) (.send rfl rfl)
    |>.step (.host 1) (.await rfl (by decide : 1 ∈ [2, 1]))
    |>.step (.host 1) (.receive rfl rfl rfl rfl)
    -- The channel of the first task is empty now, and its outcome is not stored yet.
    |>.step (.host 0) (.issue rfl)
    |>.step (.host 0) (.start rfl)
    |>.step (.host 0) (.register rfl)
    |>.step (.host 0) (.join rfl)
    |>.step (.host 0) (.take rfl rfl rfl (List.cons_ne_nil _ _))
    |>.step (.host 0) (.next rfl rfl rfl)
    |>.step (.host 1) (.store rfl rfl)
    |>.step (.host 0) (.look rfl rfl rfl)
    |>.step (.host 2) (.issue rfl)
    |>.step (.host 2) (.start rfl)
    |>.step (.host 2) (.register rfl)
    |>.step (.task 4) (.finish rfl rfl (.ok .nil))
    |>.step (.task 4) (.report rfl rfl)
    |>.step (.task 4) (.send rfl rfl)
    |>.step (.host 2) (.issue rfl)
    |>.step (.host 2) (.start rfl)
    |>.step (.host 2) (.register rfl)
    |>.step (.host 2) (.join rfl)
    |>.step (.host 2) (.take rfl rfl rfl (List.cons_ne_nil _ _))
  exact ⟨_, h, rfl, rfl, rfl, rfl, rfl⟩

theorem Reachable.accounted_overlapping : ∃ s : Threads, s.Reachable ∧
    s.issued.length < 2 ^ 64 ∧ s.places = [2, 3, 1, 5, 4] ∧ s.awaited = [(1, .ok .nil)] ∧
    s.Accounted := by
  obtain ⟨s, h, hissued, htracked, hdropped, hawaited, hjoins⟩ := exists_overlapping
  have hcount : s.issued.length < 2 ^ 64 := by
    rw [hissued]
    decide
  have hplaces : s.places = [2, 3, 1, 5, 4] := by
    rw [places, htracked, hdropped, hjoins]
    rfl
  exact ⟨s, h, hcount, hplaces, hawaited, h.accounted hcount⟩

/-! ## 4. A call that joins returns when all is quiet -/

/-- When only one thread of the host starts tasks and joins, and its call has nothing left to wait
for, then every task is over: one that is not would be tracked, or started by a thread that is not
over, and that thread would be the host's, which is joining, or an older task's. -/
theorem Reachable.all_over (h : s.Reachable) {k : Nat} {c : JoinCall}
    (starters : ∀ e ∈ s.issued, ∀ m, e.2 = .host m → m = n)
    (callers : ∀ c ∈ s.joins, c.caller = .host n) (joining : s.doing (.host n) = .joining k)
    (call : s.joins[k]? = some c) (done : c.batch = []) (nothing : s.tracker.tracked = [])
    (hid : (id, who) ∈ s.issued) : ∃ outcome, s.doing (.task id) = .over outcome := by
  obtain ⟨hn, hd, hj, hp⟩ := h.ledger
  induction id using Nat.strong_induction_on generalizing who with
  | h id ih =>
    obtain hspawned | hspawning := hn.pending id who hid
    · have hplace := hp.perm.mem_iff.mpr hspawned
      rw [places, nothing, List.nil_append, List.mem_append, List.mem_flatMap] at hplace
      obtain ⟨d, hmem, htask⟩ | hdropped := hplace
      · obtain hbatch | hresult := List.mem_append.mp htask
        · -- The call whose batch holds the task is in progress, so it is the one with no batch.
          obtain ⟨m, hm⟩ := List.mem_iff_getElem?.mp hmem
          obtain ⟨target, htarget⟩ := hj.busy m d hm (List.ne_nil_of_mem hbatch)
          rw [callers d hmem, joining] at htarget
          cases htarget
          cases call.symm.trans hm
          simp [done] at hbatch
        · obtain ⟨⟨_, outcome⟩, hfound, rfl⟩ := List.mem_map.mp hresult
          exact ⟨outcome, hd.seen _ outcome (.joined hmem hfound)⟩
      · exact hd.dropped id hdropped
    · cases who with
      | host m =>
        rw [starters _ hid m rfl, joining] at hspawning
        cases hspawning
      | task parent =>
        obtain ⟨starter, hparent⟩ := hn.born parent fun hunborn => by
          rw [hunborn] at hspawning
          cases hspawning
        obtain ⟨outcome, hover⟩ := ih parent (hn.older id parent hid) hparent
        rw [hover] at hspawning
        cases hspawning

/-- When one thread of the host starts tasks and joins, and tasks start tasks, then the call that
joins returns only after every task that was ever started is over, and nothing is tracked. -/
theorem Reachable.quiescent (h : s.Reachable)
    (starters : ∀ e ∈ s.issued, ∀ m, e.2 = .host m → m = n)
    (callers : ∀ c ∈ s.joins, c.caller = .host n) (hs : Step (.host n) s s') {k : Nat}
    (joining : s.doing (.host n) = .joining k) (returns : s'.doing (.host n) = .free) :
    (∀ e ∈ s'.issued, ∃ outcome, s'.doing (.task e.1) = .over outcome) ∧
      s'.tracker.tracked = [] := by
  cases hs with
  | leave joining' call done nothing =>
    refine ⟨fun ⟨id, who⟩ hid => ?_, rfl⟩
    obtain ⟨outcome, hover⟩ := h.all_over starters callers joining' call done nothing hid
    exact ⟨outcome, by simpa [leave] using hover⟩
  | take =>
    rw [take, joining] at returns
    cases returns
  | next joining' call first => simp at returns
  | _ => simp_all

/-- The host starts a task and joins, and the task starts another one before it ends. -/
theorem exists_nested : ∃ s : Threads, s.Reachable ∧
    s.issued = [(2, .task 1), (1, .host 0)] ∧
    s.joins = [⟨.host 0, [], [(1, .ok .nil), (2, .ok .nil)]⟩] ∧
    s.doing (.host 0) = .joining 0 ∧ s.tracker.tracked = [] := by
  have h := Reachable.initial
    |>.step (.host 0) (.issue rfl)
    |>.step (.host 0) (.start rfl)
    |>.step (.task 1) (.issue rfl)
    |>.step (.host 0) (.register rfl)
    |>.step (.host 0) (.join rfl)
    |>.step (.host 0) (.take rfl rfl rfl (List.cons_ne_nil _ _))
    |>.step (.host 0) (.next rfl rfl rfl)
    |>.step (.task 1) (.start rfl)
    |>.step (.task 1) (.register rfl)
    |>.step (.task 1) (.finish rfl rfl (.ok .nil))
    |>.step (.task 1) (.report rfl rfl)
    |>.step (.task 1) (.send rfl rfl)
    |>.step (.host 0) (.receive rfl rfl rfl rfl)
    |>.step (.host 0) (.store rfl rfl)
    |>.step (.host 0) (.take rfl rfl rfl (List.cons_ne_nil _ _))
    |>.step (.host 0) (.next rfl rfl rfl)
    |>.step (.task 2) (.finish rfl rfl (.ok .nil))
    |>.step (.task 2) (.report rfl rfl)
    |>.step (.task 2) (.send rfl rfl)
    |>.step (.host 0) (.receive rfl rfl rfl rfl)
    |>.step (.host 0) (.store rfl rfl)
  exact ⟨_, h, rfl, rfl, rfl, rfl⟩

theorem Reachable.quiescent_nested : ∃ s s' : Threads, s.Reachable ∧
    (∀ e ∈ s.issued, ∀ m, e.2 = .host m → m = 0) ∧ (∀ c ∈ s.joins, c.caller = .host 0) ∧
    Step (.host 0) s s' ∧ s.doing (.host 0) = .joining 0 ∧ s'.doing (.host 0) = .free ∧
    s'.issued = [(2, .task 1), (1, .host 0)] ∧
    (∀ e ∈ s'.issued, ∃ outcome, s'.doing (.task e.1) = .over outcome) ∧
    s'.tracker.tracked = [] := by
  obtain ⟨s, h, hissued, hjoins, joining, nothing⟩ := exists_nested
  have starters : ∀ e ∈ s.issued, ∀ m, e.2 = .host m → m = 0 := by
    simp [hissued]
  have callers : ∀ c ∈ s.joins, c.caller = .host 0 := by
    simp [hjoins]
  have hs : Step (.host 0) s (s.leave (.host 0)) :=
    .leave joining (by rw [hjoins]; rfl) rfl nothing
  have returns : (s.leave (.host 0)).doing (.host 0) = .free := by
    simp [leave]
  obtain ⟨hover, htracked⟩ := h.quiescent starters callers hs joining returns
  exact ⟨s, s.leave (.host 0), h, starters, callers, hs, joining, returns, hissued, hover,
    htracked⟩

end Threads

end Lisp
