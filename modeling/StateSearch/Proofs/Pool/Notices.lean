import StateSearch.Proofs.Notices
import StateSearch.Proofs.Pool.Outcomes

/-!
# What a search with workers tells its problem

Each worker reports its expansions under the number that they were given when they were counted. The number is
in the hands of one worker until it is reported, or until the task comes to a goal or fails (`Stage.silenced?`).
So no number is reported twice, and those that are never reported are those that were silenced
(`PoolSearch.finish_tells`).
-/

namespace StateSearch

open StateSearch.Random Act

variable {ω S M F ρ : Type}

/-! ### The numbers of the expansions that are under way -/

/-- The number of the expansion, from when it was counted until it has been reported. -/
def Stage.number? : Stage S M → Option Nat
  | claim | claimBy _ | drop | count => none
  | test tries | list tries => some tries
  | lookAtFlag sweep _ | lookAtStop sweep _ | apply sweep _ | generate sweep .. | screen sweep ..
  | screenBy sweep .. | price sweep .. | estimate sweep .. | discard sweep | report sweep => some sweep.tries

def Progress.number? : Progress S M → Option Nat
  | onward stage => stage.number?
  | goal | children _ | skipped | failed _ => none

def Phase.number? : Phase S M → Option Nat
  | working _ stage => stage.number?
  | idle | announce _ | publish _ | close _ | judgeFlag .. | judgeStop .. | blame .. | complete .. | exhaust
  | ended | broken .. => none

/-- The number of an expansion that will not be reported, because this step came to a goal or failed. -/
def Stage.silenced? (stage : Stage S M) : Progress S M → Option Nat
  | .goal | .failed _ =>
    match stage with
    | report _ => none
    | stage => stage.number?
  | .onward _ | .children _ | .skipped => none

/-- A task keeps the number of its expansion when it goes on to the next move, or to the report. -/
theorem Sweep.number?_next (sweep : Sweep S M) {stage : Stage S M} (h : stage.number? = some sweep.tries) :
    (Progress.onward sweep.next).number?.toList ++ (stage.silenced? (.onward sweep.next)).toList =
      stage.number?.toList := by
  obtain ⟨tries, rest, children⟩ := sweep
  rw [h]
  cases rest <;> rfl

@[simp] theorem Phase.number?_working (n : Node S M) (stage : Stage S M) :
    (Phase.working n stage).number? = stage.number? := rfl

@[simp] theorem Phase.number?_afterTask (n : Node S M) (progress : Progress S M) :
    (Pool.afterTask n progress).number? = progress.number? := by
  cases progress <;> rfl

@[simp] theorem Phase.number?_begin (n : Node S M) (claiming : Claiming) :
    (Phase.working n (claiming.begin S M)).number? = none := by
  cases claiming <;> rfl

variable [DecidableEq S] [Hashable S] {p : Problem ω S M} {claiming : Claiming}
  {n : Node S M}

/-- What a step of a task reports, and what becomes of the number of its expansion. -/
def Stage.Accounts (stage : Stage S M) (shared : Shared (ω × List (Notice S M)) S M F)
    (result : Progress S M × Shared (ω × List (Notice S M)) S M F) : Prop :=
  ∃ told : List (S × Nat), result.2.world.2 = shared.world.2 ++ told.map Notice.ofExpansion ∧
    (told.map Prod.snd ++ result.1.number?.toList ++ (stage.silenced? result.1).toList ++
      List.range' 1 shared.expanded).Perm (stage.number?.toList ++ List.range' 1 result.2.expanded)

namespace Stage

variable {stage : Stage S M} {shared : Shared (ω × List (Notice S M)) S M F}

/-- Where nothing is reported or counted, the number is kept or silenced. -/
theorem accounts_of_eq {progress : Progress S M} {shared' : Shared (ω × List (Notice S M)) S M F}
    (hworld : shared'.world.2 = shared.world.2) (hexpanded : shared'.expanded = shared.expanded)
    (hnumber : progress.number?.toList ++ (stage.silenced? progress).toList = stage.number?.toList) :
    stage.Accounts shared (progress, shared') :=
  ⟨[], hworld.trans (List.append_nil _).symm, .of_eq (by rw [hexpanded, ← hnumber]; rfl)⟩

theorem accounts_calling {α : Type} (call : Call ω α) (onward : α → Progress S M)
    (hok : ∀ value, (onward value).number?.toList ++ (stage.silenced? (onward value)).toList =
      stage.number?.toList)
    (hfailed : ∀ fault, (stage.silenced? (.failed fault)).toList = stage.number?.toList) :
    stage.Accounts shared (calling (call.noting []) shared onward) :=
  calling_ind _ (fun value _ => accounts_of_eq (List.append_nil _) rfl (hok value))
    fun fault _ => accounts_of_eq (List.append_nil _) rfl (hfailed fault)

theorem accounts_converse (query : SeenQuery S) (continued : SeenQuery S → Progress S M)
    (known absent : Progress S M)
    (hcontinued : ∀ query, (continued query).number?.toList ++ (stage.silenced? (continued query)).toList =
      stage.number?.toList)
    (hknown : known.number?.toList ++ (stage.silenced? known).toList = stage.number?.toList)
    (habsent : absent.number?.toList ++ (stage.silenced? absent).toList = stage.number?.toList)
    (hfailed : ∀ fault, (stage.silenced? (.failed fault)).toList = stage.number?.toList) :
    stage.Accounts shared (converse query shared continued known absent) := by
  cases query with
  | answer found =>
    cases found with
    | true => exact accounts_of_eq rfl rfl hknown
    | false => exact accounts_of_eq rfl rfl habsent
  | fail fault => exact accounts_of_eq rfl rfl (hfailed fault)
  | insert | contains | size => exact accounts_of_eq rfl rfl (hcontinued _)

theorem accounts_step (p : Problem ω S M) (claiming : Claiming) (n : Node S M) (stage : Stage S M)
    (shared : Shared (ω × List (Notice S M)) S M F) :
    stage.Accounts shared (stage.step p.logged claiming n shared) := by
  cases stage with
  | claim | apply | screen => exact accounts_calling _ _ (fun _ => rfl) fun _ => rfl
  | test =>
    refine accounts_calling _ _ (fun reached => ?_) fun _ => rfl
    cases reached <;> rfl
  | list => exact accounts_calling _ _ (fun _ => Sweep.number?_next _ rfl) fun _ => rfl
  | price sweep =>
    refine accounts_calling _ _ (fun _ => ?_) fun _ => rfl
    cases claiming with
    | whenGenerated => exact (sweep.add _).number?_next rfl
    | whenTaken => rfl
  | estimate sweep => exact accounts_calling _ _ (fun _ => (sweep.add _).number?_next rfl) fun _ => rfl
  | claimBy => exact accounts_converse _ _ _ _ (fun _ => rfl) rfl rfl fun _ => rfl
  | screenBy => exact accounts_converse _ _ _ _ (fun _ => rfl) rfl rfl fun _ => rfl
  | drop => exact accounts_of_eq rfl rfl rfl
  | discard sweep => exact accounts_of_eq rfl rfl (sweep.number?_next rfl)
  | generate => exact accounts_of_eq rfl rfl (by cases claiming <;> rfl)
  | lookAtFlag => exact accounts_of_eq rfl rfl (by split <;> rfl)
  | lookAtStop => exact accounts_of_eq rfl rfl (by split <;> rfl)
  | count =>
    -- The new number is the next one.
    refine ⟨[], (List.append_nil _).symm, ?_⟩
    show ([shared.expanded + 1] ++ List.range' 1 shared.expanded).Perm (List.range' 1 (shared.expanded + 1))
    rw [List.range'_1_concat, Nat.add_comm 1]
    exact List.perm_append_comm
  | report sweep =>
    exact calling_ind _ (fun _ _ => ⟨[(n.state, sweep.tries)], rfl, .refl _⟩)
      fun _ _ => ⟨[(n.state, sweep.tries)], rfl, .refl _⟩

end Stage

/-! ### Pools -/

namespace Pool

/-- The numbers of the expansions that are under way. -/
def underWay (workers : List (Worker S M ρ)) : List Nat :=
  workers.filterMap fun w => w.phase.number?

omit [DecidableEq S] [Hashable S] in
theorem underWay_middle (before after : List (Worker S M ρ)) (w : Worker S M ρ) :
    underWay (before ++ w :: after) = underWay before ++ (w.phase.number?.toList ++ underWay after) := by
  unfold underWay
  rw [List.filterMap_append, List.filterMap_cons]
  cases w.phase.number? <;> rfl

variable [Frontier F (Node S M)] [Coin ρ]

/-- The expansion that is silenced when the actor has its turn. -/
def silences (p : Problem ω S M) (claiming : Claiming) (pool : Pool ω S M F ρ) : Actor → List Nat
  | .worker index =>
    match pool.workers[index]?.map Worker.phase with
    | some (.working n stage) => (stage.silenced? (stage.step p claiming n pool.shared).1).toList
    | _ => []
  | .waiter | .outsider => []

/-- The numbers of the expansions that are silenced while these actors have their turns: their tasks came to a
goal or failed before they were reported. -/
def silenced (p : Problem ω S M) (claiming : Claiming) : Pool ω S M F ρ → List Actor → List Nat
  | _, [] => []
  | pool, actor :: actors => pool.silences p claiming actor ++
      silenced p claiming ((pool.step p claiming actor).getD pool) actors

theorem silences_of_step_eq_none {pool : Pool ω S M F ρ} {actor : Actor}
    (hs : pool.step p claiming actor = none) : pool.silences p claiming actor = [] := by
  obtain ⟨shared, workers, waiting⟩ := pool
  cases actor with
  | worker index =>
    cases hw : workers[index]? with
    | none => simp only [silences, hw, Option.map_none]
    | some w =>
      obtain ⟨phase, coin⟩ := w
      simp only [silences, hw, Option.map_some]
      cases phase with
      | working n stage => simp only [Pool.step, hw, stepWorker] at hs; cases hs
      | _ => rfl
  | waiter | outsider => rfl

/-- Every number that was given out was reported, is under way or was silenced. -/
def Accounts (silent : List Nat) (pool : Pool (ω × List (Notice S M)) S M F ρ) : Prop :=
  ∃ told : List (S × Nat), pool.shared.world.2 = told.map Notice.ofExpansion ∧
    (told.map Prod.snd ++ underWay pool.workers ++ silent).Perm (List.range' 1 pool.shared.expanded)

variable {pool next : Pool (ω × List (Notice S M)) S M F ρ} {silent : List Nat} {actor : Actor}

theorem Accounts.step (h : pool.Accounts silent) (hs : pool.step p.logged claiming actor = some next) :
    next.Accounts (silent ++ pool.silences p.logged claiming actor) := by
  obtain ⟨shared, workers, waiting⟩ := pool
  obtain ⟨told, hlog, hnumbers⟩ := h
  rcases step_cases hs with ⟨before, w, after, w', shared', rfl, hw, hacts, rfl⟩ |
    ⟨waiting', shared', rfl, hwaits, rfl⟩ | ⟨rfl, rfl⟩
  · obtain rfl : workers = _ := hw
    simp only [silences, getElem?_middle, Option.map_some]
    -- Only tasks report, count or are silenced.
    have hpass : w.phase.number? = none → w'.phase.number? = none → shared'.world = shared.world →
        shared'.expanded = shared.expanded →
        Accounts silent ⟨shared', before ++ w' :: after, waiting⟩ := by
      intro hold hnew hworld hexpanded
      refine ⟨told, (congrArg Prod.snd hworld).trans hlog, ?_⟩
      simp only [underWay_middle, hold, hnew, hexpanded] at hnumbers ⊢
      exact hnumbers
    generalize hph : w.phase = phase at hacts hpass
    cases hacts with
    | @task n stage progress _ ht =>
      obtain ⟨new, hnew, hmoved⟩ := Stage.accounts_step p claiming n stage shared
      rw [ht] at hnew hmoved
      refine ⟨told ++ new, ?_, ?_⟩
      · rw [hnew, List.map_append, ← hlog]
      · simp only [underWay_middle, Phase.number?_afterTask, Phase.number?_working, hph, ht] at hnumbers ⊢
        rw [List.perm_iff_count] at *
        intro k
        have hk := hnumbers k
        have hk' := hmoved k
        simp only [List.map_append, List.count_append] at hk hk' ⊢
        omega
    | taken => exact (List.append_nil silent).symm ▸ hpass rfl (Phase.number?_begin _ _) rfl rfl
    | @completed _ _ exhausted =>
      exact (List.append_nil silent).symm ▸ hpass rfl (by cases exhausted <;> rfl) rfl rfl
    | _ => exact (List.append_nil silent).symm ▸ hpass rfl rfl rfl rfl
  · rw [silences, List.append_nil]
    cases hwaits <;> exact ⟨told, hlog, hnumbers⟩
  · rw [silences, List.append_nil]
    exact ⟨told, hlog, hnumbers⟩

theorem Accounts.follow (h : pool.Accounts silent) (actors : List Actor) :
    (pool.follow p.logged claiming actors).Accounts (silent ++ pool.silenced p.logged claiming actors) := by
  induction actors generalizing pool silent with
  | nil => exact (List.append_nil silent).symm ▸ h
  | cons actor actors ih =>
    show (((pool.step p.logged claiming actor).getD pool).follow p.logged claiming actors).Accounts
      (silent ++ (pool.silences p.logged claiming actor ++ _))
    rw [← List.append_assoc]
    refine ih ?_
    cases hs : pool.step p.logged claiming actor with
    | none =>
      rw [silences_of_step_eq_none hs, List.append_nil]
      exact h
    | some next => exact h.step hs

end Pool

/-! ### What was found -/

/-- A task comes to a goal only if the problem says that its state is one. -/
theorem Stage.hails_of_step {p : Problem ω S M} {stage : Stage S M} {shared shared' : Shared ω S M F}
    (h : stage.step p claiming n shared = (.goal, shared')) : p.Hails n.state := by
  let P : Progress S M × Shared ω S M F → Prop := fun result => result.1 = .goal → p.Hails n.state
  have hstep : P (stage.step p claiming n shared) := by
    have hfailed : ∀ fault (shared : Shared ω S M F), P (.failed fault, shared) := fun _ _ hgoal => by cases hgoal
    cases stage with
    | claim | list | apply | screen | estimate | report =>
      exact calling_ind P (fun _ _ hgoal => by cases hgoal) fun _ _ => hfailed _ _
    | test =>
      refine calling_ind P (fun reached hr hgoal => ?_) fun _ _ => hfailed _ _
      cases reached with
      | true => exact ⟨_, hr⟩
      | false => cases hgoal
    | price =>
      refine calling_ind P (fun _ _ hgoal => ?_) fun _ _ => hfailed _ _
      cases claiming <;> cases hgoal
    | claimBy query | screenBy _ _ _ query =>
      intro hgoal
      cases query with
      | answer known => cases known <;> cases hgoal
      | _ => cases hgoal
    | lookAtFlag | lookAtStop =>
      intro hgoal
      simp only [Stage.step] at hgoal
      split at hgoal <;> cases hgoal
    | drop | count | discard =>
      intro hgoal
      cases hgoal
    | generate =>
      intro hgoal
      cases claiming <;> cases hgoal
  exact hstep (congrArg Prod.fst h)

/-- A goal in the hands of a worker who is going to put it into the slot. -/
def Phase.Hailed (p : Problem ω S M) : Phase S M → Prop
  | announce n | publish n => p.Hails n.state
  | idle | working .. | close _ | judgeFlag .. | judgeStop .. | blame .. | complete .. | exhaust | ended
  | broken .. => True

namespace Pool

variable [Frontier F (Node S M)] [Coin ρ] {p : Problem ω S M} {pool next : Pool ω S M F ρ} {actor : Actor}

/-- The problem said of all goals in the pool that they are. -/
structure Hailed (p : Problem ω S M) (pool : Pool ω S M F ρ) : Prop where
  workers : ∀ w ∈ pool.workers, w.phase.Hailed p
  slot : ∀ n, pool.shared.slot.content = .assigned n → p.Hails n.state
  waiting : ∀ n, pool.waiting = .close (some n) ∨ pool.waiting = .ended (some n) → p.Hails n.state

theorem Hailed.step (h : pool.Hailed p) (hs : pool.step p claiming actor = some next) : next.Hailed p := by
  obtain ⟨shared, workers, waiting⟩ := pool
  obtain ⟨hworkers, hslot, hwaiting⟩ := h
  rcases step_cases hs with ⟨before, w, after, w', shared', -, hw, hacts, rfl⟩ |
    ⟨waiting', shared', -, hwaits, rfl⟩ | ⟨-, rfl⟩
  · obtain rfl : workers = _ := hw
    have hothers := fun hb => forall_mem_replace (b := w') hworkers (fun _ h => h) hb
    have hw := hworkers w (by simp)
    generalize hph : w.phase = phase at hacts hw
    cases hacts with
    | @task n stage progress _ ht =>
      have hframe := Stage.frame_of_step_eq ht
      refine ⟨hothers ?_, fun n' hn' => hslot n' (hframe.slot ▸ hn'), hwaiting⟩
      cases progress with
      | goal => exact Stage.hails_of_step ht
      | _ => trivial
    | announced => exact ⟨hothers hw, hslot, hwaiting⟩
    | won =>
      refine ⟨hothers trivial, fun n' hn' => ?_, hwaiting⟩
      cases hn'
      exact hw
    | @completed _ _ exhausted => exact ⟨hothers (by cases exhausted <;> trivial), hslot, hwaiting⟩
    | exhausted =>
      refine ⟨hothers trivial, fun n' hn' => hslot n' ?_, hwaiting⟩
      simp only [Slot.markExhausted] at hn'
      split at hn'
      · cases hn'
      · exact hn'
    | _ => exact ⟨hothers trivial, hslot, hwaiting⟩
  · generalize hph : waiting = phase at hwaits
    cases hwaits with
    | resolved hr =>
      refine ⟨hworkers, hslot, fun n hn => hslot n ?_⟩
      rcases hn with hn | hn
      · cases hn
        exact Slot.content_of_resolution? hr
      · cases hn
    | closed =>
      refine ⟨hworkers, hslot, fun n hn => hwaiting n (.inl ?_)⟩
      rcases hn with hn | hn
      · cases hn
      · cases hn
        exact hph
    | _ => exact ⟨hworkers, hslot, fun n hn => by rcases hn with hn | hn <;> cases hn⟩
  · exact ⟨hworkers, hslot, hwaiting⟩

omit [Coin ρ] in
theorem Hailed.of_isFresh [LawfulFrontier F (Node S M)] {root : Node S M} (h : pool.IsFresh root) :
    pool.Hailed p where
  workers w hw := by
    rw [h.idle w hw]
    trivial
  slot n hn := by
    rw [h.slot] at hn
    cases hn
  waiting n hn := by
    rw [h.waiting] at hn
    rcases hn with hn | hn <;> cases hn

theorem Hailed.follow (h : pool.Hailed p) (actors : List Actor) : (pool.follow p claiming actors).Hailed p :=
  follow_induction (fun _ _ _ h hs => h.step hs) h actors

end Pool

/-! ### The reports of a whole search -/

/-- The expansions were reported under different numbers, and only these were not. -/
structure OnceEach (told : List (S × Nat)) (silenced : List Nat) (expanded : Nat) : Prop where
  nodup : (told.map Prod.snd).Nodup
  counted : ∀ tries ∈ told.map Prod.snd, 1 ≤ tries ∧ tries ≤ expanded
  count : told.length + silenced.length = expanded

omit [DecidableEq S] [Hashable S] in
theorem OnceEach.of_perm {told : List (S × Nat)} {silenced : List Nat} {expanded : Nat}
    (h : (told.map Prod.snd ++ silenced).Perm (List.range' 1 expanded)) : OnceEach told silenced expanded where
  nodup := (List.nodup_append'.1 (h.nodup_iff.2 List.nodup_range')).1
  counted tries htries := by
    have := List.mem_range'_1.1 (h.mem_iff.1 (List.mem_append_left _ htries))
    omega
  count := by simpa using h.length_eq

namespace PoolSearch

variable [Frontier F (Node S M)] [LawfulFrontier F (Node S M)] [Coin ρ] {p : Problem ω S M}

/-- What a pool has told when everybody has ended and its result is read off in this arena, in whatever order the
actors had their turns. -/
def Tells (p : Problem ω S M) (claiming : Claiming) (pool : Pool (ω × List (Notice S M)) S M F ρ)
    (arena : Arena (ω × List (Notice S M))) : Prop :=
  ∀ actors goal, (pool.follow p.logged claiming actors).outcome? = some goal →
    wp (finish p.logged (pool.follow p.logged claiming actors) goal) (fun path after => ∃ told,
      Reports p told path after.stats.expanded after.world.2 ∧
      OnceEach told (pool.silenced p.logged claiming actors) after.stats.expanded) (fun _ _ => True) arena

variable {pool : Pool (ω × List (Notice S M)) S M F ρ} {arena : Arena (ω × List (Notice S M))}

/-- No expansion is reported twice, and those that are never reported came to a goal or failed before. -/
theorem tells_of_isFresh {remaining : Cost} (hfresh : pool.IsFresh (.root p.initial remaining))
    (hlog : pool.shared.world.2 = []) (hexpanded : pool.shared.expanded = 0) :
    Tells p claiming pool arena := by
  intro actors goal hend
  have hstart : pool.Accounts [] := by
    have hidle : Pool.underWay pool.workers = [] :=
      List.filterMap_eq_nil_iff.2 fun w hw => by rw [hfresh.idle w hw]; rfl
    refine ⟨[], hlog, ?_⟩
    rw [hidle, hexpanded]
    exact .refl _
  obtain ⟨told, htold, hnumbers⟩ : (pool.follow p.logged claiming actors).Accounts
    (pool.silenced p.logged claiming actors) := hstart.follow actors
  have hover : Pool.underWay (pool.follow p.logged claiming actors).workers = [] := by
    refine List.filterMap_eq_nil_iff.2 fun w hw => ?_
    have := (Pool.ended_of_outcome? hend).2 w hw
    cases hph : w.phase <;> rw [hph] at this <;> first | rfl | cases this
  rw [hover, List.append_nil] at hnumbers
  have hhailed : (pool.follow p.logged claiming actors).Hailed p.logged := (Pool.Hailed.of_isFresh hfresh).follow actors
  have hfound : ∀ n ∈ goal, p.Found n := by
    rintro n rfl
    obtain ⟨world, hanswer⟩ := hhailed.waiting n (.inr (Pool.ended_of_outcome? hend).1)
    refine ⟨⟨world.1, hanswer⟩, fun rules hp => ?_⟩
    have hlogged := Problem.respects_logged hp
    have hcarries : pool.Carries p.logged rules (Node.Genuine rules) claiming := by
      refine hfresh.carries ?_
      rw [hp.initial]
      exact .root remaining
    obtain ⟨hgenuine, hgoal⟩ := (hcarries.follow hlogged (inherited_genuine _ _ _) actors).of_outcome? hend
    exact ⟨hgenuine, hgoal⟩
  unfold finish
  rw [wp_bind]
  refine (wp_conclude_logged p goal).mono ?_
  rintro path after ⟨rfl, hafter⟩
  obtain ⟨hworld, hcount⟩ := Prod.ext_iff.1 hafter
  change after.world.2 = (pool.follow p.logged claiming actors).shared.world.2 ++ _ at hworld
  change after.stats.expanded = (pool.follow p.logged claiming actors).shared.expanded at hcount
  rw [hcount]
  refine ⟨told, ⟨_, Problem.endsAt_of_found hfound, ?_⟩, .of_perm hnumbers⟩
  rw [hworld, htold]

end PoolSearch

namespace PoolSearch

variable [Coin ρ] {p : Problem ω S M} {plan : Plan ρ} {arena middle : Arena (ω × List (Notice S M))}

theorem tells_of_prepareConcurrent {placement : Placement}
    {pool : Pool (ω × List (Notice S M)) S M (BiasedDeque S M) ρ} (hlog : arena.told = ([], 0))
    (hprepare : prepareConcurrent p.logged placement plan arena = .ok pool middle) :
    Tells p .whenGenerated pool middle := by
  obtain ⟨⟨known, seen⟩, between, hinquire, h⟩ := of_bind_eq_ok hprepare
  have htold := ((Keeps.inquire_told _ _ _).of_eq_ok hinquire).trans hlog
  cases h
  exact tells_of_isFresh (isFresh_of_prepareConcurrent hprepare).1 (congrArg Prod.fst htold) rfl

theorem tells_of_prepareAStar {pool : Pool (ω × List (Notice S M)) S M (OpenList S M) ρ}
    (hlog : arena.told = ([], 0)) (hprepare : prepareAStar p.logged plan arena = .ok pool middle) :
    Tells p .whenTaken pool middle := by
  obtain ⟨remaining, -, -, hfresh, -⟩ := isFresh_of_prepareAStar hprepare
  obtain ⟨_, between, hask, h⟩ := of_bind_eq_ok hprepare
  have htold := ((Keeps.ask_told _).of_eq_ok hask).trans hlog
  cases h
  exact tells_of_isFresh hfresh (congrArg Prod.fst htold) rfl

theorem Ends.once_each [Frontier F (Node S M)]
    {prepare : Act (ω × List (Notice S M)) (Pool (ω × List (Notice S M)) S M F ρ)}
    {result : Option (Option (Path M))} {after : Arena (ω × List (Notice S M))}
    (htells : ∀ pool middle, prepare arena = .ok pool middle → Tells p claiming pool middle)
    (h : Ends p.logged claiming prepare arena (.ok result after)) :
    ∃ path told, result = some path ∧ Reports p told path after.stats.expanded after.world.2 ∧
      ∃ silenced, OnceEach told silenced after.stats.expanded := by
  generalize houtcome : (EStateM.Result.ok result after : Upshot (ω × List (Notice S M)) M) = outcome at h
  cases h with
  | unprepared => cases houtcome
  | @finished pool middle goal hprepare actors hend =>
    obtain ⟨path, _, hfinish, h⟩ := of_bind_eq_ok houtcome.symm
    cases h
    obtain ⟨told, hreports, honce⟩ := (htells pool middle hprepare actors goal hend).of_eq_ok hfinish
    exact ⟨path, told, rfl, hreports, _, honce⟩

end PoolSearch

theorem Ends.reports {p : Problem ω S M} {strategy : Strategy} {arena after : Arena (ω × List (Notice S M))}
    {result : Option (Option (Path M))} (hlog : arena.told = ([], 0))
    (h : Ends p.logged arena strategy (.ok result after)) :
    ∃ path told, result = some path ∧ Reports p told path after.stats.expanded after.world.2 ∧
      if strategy.isShared then ∃ silenced, OnceEach told silenced after.stats.expanded
      else InTurn told path after.stats.expanded := by
  generalize houtcome : (EStateM.Result.ok result after : Upshot (ω × List (Notice S M)) M) = outcome at h
  cases h with
  | depthFirst =>
    obtain ⟨path, _, hsolve, h⟩ := of_bind_eq_ok houtcome.symm
    cases h
    obtain ⟨told, hreports⟩ := Exhaustive.reports_of_solve hlog hsolve
    exact ⟨path, told, rfl, hreports⟩
  | breadthFirst =>
    obtain ⟨path, _, hsolve, h⟩ := of_bind_eq_ok houtcome.symm
    cases h
    obtain ⟨told, hreports⟩ := Exhaustive.reports_of_solve hlog hsolve
    exact ⟨path, told, rfl, hreports⟩
  | aStar =>
    obtain ⟨path, _, hsolve, h⟩ := of_bind_eq_ok houtcome.symm
    cases h
    obtain ⟨told, hreports⟩ := BestFirst.reports_of_solve hlog hsolve
    exact ⟨path, told, rfl, hreports⟩
  | concurrent hends =>
    cases houtcome
    exact hends.once_each fun _ _ hprepare => PoolSearch.tells_of_prepareConcurrent hlog hprepare
  | concurrentAStar hends =>
    cases houtcome
    exact hends.once_each fun _ _ hprepare => PoolSearch.tells_of_prepareAStar hlog hprepare

namespace Solver

/-- What is left of the result of a search if the list of what the problem was told is forgotten. -/
def forget : Solver × (ω × List (Notice S M)) × Ending M → Solver × ω × Ending M
  | (solver, world, ending) => (solver, world.1, ending)

/-- The problem was told of the path that was returned, and of the expansions before it. -/
def Informs (solver : Solver) (p : Problem ω S M)
    (result : Solver × (ω × List (Notice S M)) × Ending M) : Prop :=
  ∀ path, result.2.2 = .answered path ∨ path = none ∧ (∃ error, result.2.2 = .failed error) →
    ∃ told, Reports p told path result.1.stats.expanded result.2.1.2 ∧
      if solver.strategy.isShared then ∃ silenced, OnceEach told silenced result.1.stats.expanded
      else InTurn told path result.1.stats.expanded

variable {solver : Solver} {p : Problem ω S M} {world : ω}

omit [DecidableEq S] [Hashable S] in
theorem eq_of_endingOf {faults : List WorkerFault} {path found : Option (Path M)}
    (h : endingOf faults (some found) = .answered path ∨
      path = none ∧ ∃ error, endingOf faults (some found) = .failed error) : path = found := by
  cases found with
  | some found =>
    rcases h with h | ⟨-, error, h⟩
    · cases h
      rfl
    · cases h
  | none =>
    rcases h with h | ⟨rfl, -⟩
    · simp only [endingOf] at h
      split at h <;> cases h
      rfl
    · rfl

theorem informs_of_ends {arena : Arena (ω × List (Notice S M))} {outcome : Upshot (ω × List (Notice S M)) M}
    (hlog : arena.told = ([], 0)) (h : Ends p.logged arena solver.strategy outcome) :
    solver.Informs p (solver.close outcome) := by
  intro path hpath
  cases outcome with
  | error fault after => rcases hpath with hpath | ⟨-, error, hpath⟩ <;> cases hpath
  | ok result after =>
    obtain ⟨found, told, rfl, hreports⟩ := h.reports hlog
    obtain rfl := eq_of_endingOf hpath
    exact ⟨told, hreports⟩

/-- The call for the initial state tells nothing. -/
theorem Leaves.informs {first : Call ω S} {result : Solver × (ω × List (Notice S M)) × Ending M}
    (h : solver.Leaves p.logged (first.noting []) (world, []) result) : solver.Informs p result := by
  cases h with
  | unbegun =>
    intro path hpath
    rcases hpath with hpath | ⟨-, error, hpath⟩ <;> cases hpath
  | begun hfirst hends => exact informs_of_ends ((Keeps.ask_told first).of_eq_ok hfirst) hends

theorem Leaves.exists_logged {first : Call ω S} {result : Solver × ω × Ending M}
    (h : solver.Leaves p first world result) :
    ∃ logged, solver.Leaves p.logged (first.noting []) (world, []) logged ∧ result = forget logged := by
  have hask : through Prod.fst true (ask (first.noting []) (solver.arena (world, ([] : List (Notice S M))))) =
    ask first (solver.arena world) := Like.ask (first.like_noting _) _
  cases h with
  | unbegun hfirst =>
    obtain ⟨after, hlogged, rfl⟩ := through_eq_error (hask.trans hfirst)
    exact ⟨_, .unbegun hlogged, close_through Prod.fst solver (.error _ after)⟩
  | begun hfirst hends =>
    obtain ⟨middle, hlogged, rfl⟩ := through_eq_ok (hask.trans hfirst)
    obtain ⟨outcome, hown, rfl⟩ := hends.exists_of_like p.like_logged
    exact ⟨_, .begun hlogged hown, close_through Prod.fst solver outcome⟩

omit [DecidableEq S] [Hashable S] in
theorem Informs.forgive {result : Solver × (ω × List (Notice S M)) × Ending M} (h : solver.Informs p result) :
    solver.Informs p (Solver.forgive result) := by
  obtain ⟨after, world, ending⟩ := result
  cases ending with
  | failed error =>
    intro path hpath
    rcases hpath with hpath | ⟨-, error, hpath⟩
    · cases hpath
      exact h none (.inr ⟨rfl, error, rfl⟩)
    · cases hpath
  | _ => exact h

theorem informs_trySolve (solver : Solver) (p : Problem ω S M) (world : ω) (limit : Option Nat) :
    solver.Informs p (solver.trySolve p.logged (world, []) limit) := by
  rcases solver.ends_or_unfinished p.logged limit (solver.arena (world, [])) with h | ⟨after, h, -⟩
  · exact informs_of_ends rfl h
  · intro path hpath
    unfold trySolve at hpath
    rw [h] at hpath
    rcases hpath with hpath | ⟨-, error, hpath⟩ <;> cases hpath

/-- Every search is one in which the problem also keeps a list of what it is told, and in the end the list holds
the reports of expansions and then, once, the result with the number of expansions. Without workers each
expansion but that of the goal is reported, in turn. With workers, in whatever order they have their turns, each
is reported at most once under its own number, and those that are not came to a goal or failed before. -/
theorem observed_searches (solver : Solver) (p : Problem ω S M) (world : ω) :
    ((∀ limit, solver.trySolve p world limit = forget (solver.trySolve p.logged (world, []) limit)) ∧
      ∀ first result, solver.Leaves p first world result →
        ∃ logged, solver.Leaves p.logged (first.noting []) (world, []) logged ∧ result = forget logged) ∧
    ((∀ limit, solver.Informs p (solver.trySolve p.logged (world, []) limit) ∧
        solver.Informs p (solver.solve p.logged (world, []) limit)) ∧
      ∀ (first : Call ω S) result, solver.Leaves p.logged (first.noting []) (world, []) result →
        solver.Informs p result ∧ solver.Informs p (forgive result)) ∧
    ∀ {ρ : Type} [Coin ρ] (plan : PoolSearch.Plan ρ) (middle : Arena (ω × List (Notice S M))),
      (∀ placement pool, PoolSearch.prepareConcurrent p.logged placement plan (solver.arena (world, [])) =
        .ok pool middle → PoolSearch.Tells p .whenGenerated pool middle) ∧
      ∀ pool, PoolSearch.prepareAStar p.logged plan (solver.arena (world, [])) = .ok pool middle →
        PoolSearch.Tells p .whenTaken pool middle := by
  refine ⟨⟨fun limit => ?_, fun _ _ h => h.exists_logged⟩, ⟨fun limit => ?_, ?_⟩, fun plan middle => ⟨?_, ?_⟩⟩
  · exact trySolve_through p.like_logged solver (world, []) limit
  · have htry := informs_trySolve solver p world limit
    exact ⟨htry, htry.forgive⟩
  · exact fun _ _ h => ⟨h.informs, h.informs.forgive⟩
  · exact fun placement pool => PoolSearch.tells_of_prepareConcurrent rfl
  · exact fun pool => PoolSearch.tells_of_prepareAStar rfl

end Solver

end StateSearch
