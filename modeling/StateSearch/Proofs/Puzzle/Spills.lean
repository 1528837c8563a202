import StateSearch.Proofs.Faultless
import StateSearch.Proofs.Puzzle.Measuring

/-!
# Pouring spills nothing

Wherever a search can get, every pour can be tried: no difference of amounts is negative, no sum goes around, and
water that is poured over is all still there (`Pouring.Safe`). So no search of the puzzle fails, whoever else is in
its world. What it expands lies on the edges of a rectangle, so that there is not much of it (`Pouring.never_spills`).
-/

namespace StateSearch.Puzzle.Pouring

variable {jugs : Pouring} {contents next : Contents} {ω ρ : Type}

/-! ### One pour -/

/-- Water was poured from a container into another one of this capacity: as numbers, the amounts have the same sum,
the one did not become more, nor the other less, and no more can be poured. -/
structure PouredOver (capacity source target source' target' : UInt32) : Prop where
  sum : source'.toNat + target'.toNat = source.toNat + target.toNat
  source : source' ≤ source
  target : target ≤ target'
  ended : source' = 0 ∨ target' = capacity

theorem PouredOver.transfer (source : UInt32) {target capacity : UInt32} (hfits : target ≤ capacity) :
    PouredOver capacity source target (source - min source (capacity - target))
      (target + min source (capacity - target)) := by
  obtain ⟨hless, hmore⟩ := toNat_transfer source hfits
  obtain ⟨hsource, -, hended⟩ := transfer_level source hfits
  refine ⟨?_, hsource, ?_, hended⟩
  · rw [hless, hmore]
    omega
  · rw [UInt32.le_iff_toNat_le, hmore]
    omega

/-- The amounts fit, one container is full or empty, and all that can be tried here succeeds. -/
structure Safe (jugs : Pouring) (contents : Contents) : Prop where
  level : jugs.Level contents
  pours : ∃ legal, jugs.pours contents = .ok legal
  pour : ∀ move, ∃ next, jugs.pour contents move = .ok next ∧ jugs.Level next
  firstIntoSecond : ∀ next, jugs.pour contents .firstIntoSecond = .ok next →
    PouredOver jugs.second contents.1 contents.2 next.1 next.2
  secondIntoFirst : ∀ next, jugs.pour contents .secondIntoFirst = .ok next →
    PouredOver jugs.first contents.2 contents.1 next.2 next.1

theorem Level.safe (h : jugs.Level contents) : jugs.Safe contents where
  level := h
  pours := ⟨_, h.pours_eq⟩
  pour := h.pour
  firstIntoSecond next hnext := by
    simp only [Pouring.pour, room, if_pos h.second] at hnext
    cases hnext
    exact .transfer contents.1 h.second
  secondIntoFirst next hnext := by
    simp only [Pouring.pour, room, if_pos h.first] at hnext
    cases hnext
    exact .transfer contents.2 h.first

/-! ### The rim -/

/-- The edges of the rectangle of all amounts that fit. -/
def rim (jugs : Pouring) : List Contents :=
  ((List.range (jugs.first.toNat + 1)).flatMap fun amount => [(.ofNat amount, 0), (.ofNat amount, jugs.second)]) ++
    (List.range (jugs.second.toNat + 1)).flatMap fun amount => [(0, .ofNat amount), (jugs.first, .ofNat amount)]

theorem length_rim (jugs : Pouring) : jugs.rim.length = 2 * (jugs.first.toNat + jugs.second.toNat + 2) := by
  simp only [rim, List.length_append, List.length_flatMap, List.length_cons, List.length_nil,
    List.map_const', List.length_range, List.sum_replicate, Nat.nsmul_eq_mul]
  omega

theorem Level.mem_rim (h : jugs.Level contents) : contents ∈ jugs.rim := by
  obtain ⟨first, second⟩ := contents
  obtain ⟨hfirst, hsecond, hedge⟩ := h
  have hfirst' : first.toNat ∈ List.range (jugs.first.toNat + 1) := List.mem_range.2 (Nat.lt_succ_of_le hfirst)
  have hsecond' : second.toNat ∈ List.range (jugs.second.toNat + 1) := List.mem_range.2 (Nat.lt_succ_of_le hsecond)
  rw [rim, List.mem_append, List.mem_flatMap, List.mem_flatMap]
  rcases hedge with rfl | rfl | rfl | rfl
  · exact .inr ⟨_, hsecond', by simp⟩
  · exact .inr ⟨_, hsecond', by simp⟩
  · exact .inl ⟨_, hfirst', by simp⟩
  · exact .inl ⟨_, hfirst', by simp⟩

/-- No more than the rim can be counted. -/
theorem le_of_countsOnce {count : Nat} (h : jugs.tame.CountsOnce id count) :
    count ≤ 2 * (jugs.first.toNat + jugs.second.toNat + 2) :=
  jugs.length_rim ▸ h.le fun _ hreach => (level_of_reachable hreach).mem_rim

/-! ### All searches -/

/-- Nobody asks for a stop in a call of the puzzle. -/
theorem hushed_problem (jugs : Pouring) : (jugs.problem : Problem ω _ _).hushed = jugs.problem := by
  have hexcept : ∀ {α : Type} (result : Except Fault α), (Call.ofExcept result : Call ω α).hushed = .ofExcept result :=
    fun result => by cases result <;> rfl
  unfold Problem.hushed problem
  simp only [hexcept]
  rfl

theorem like_amid (jugs : Pouring) (others : ω → ω × Bool) :
    (jugs.problem.amid others).Like (fun _ => ()) false jugs.problem := by
  have hlike := (jugs.problem : Problem Unit _ _).like_amid others
  rwa [hushed_problem] at hlike

/-- Nothing failed in this pool, and it did not count more than there is on the rim. -/
structure Dry (jugs : Pouring) {F : Type} [Frontier F (Node Contents Pour)] (pool : Pool ω Contents Pour F ρ) :
    Prop where
  blameless : pool.Blameless
  expanded : pool.shared.expanded ≤ 2 * (jugs.first.toNat + jugs.second.toNat + 2)

theorem exists_dry {F : Type} [Frontier F (Node Contents Pour)] [LawfulFrontier F (Node Contents Pour)]
    [Random.Coin ρ] {claiming : Claiming} {p : Problem ω Contents Pour}
    (hlike : p.Like (fun _ => ()) false jugs.problem) {prepare : Act ω (Pool ω Contents Pour F ρ)} {arena : Arena ω}
    (hlaunches : PoolSearch.Launches (fun _ => ()) jugs.tame claiming prepare arena) :
    ∃ pool middle, prepare arena = .ok pool middle ∧ ∀ actors, jugs.Dry (pool.follow p claiming actors) := by
  obtain ⟨pool, middle, hprepare⟩ := hlaunches.prepared
  refine ⟨pool, middle, hprepare, fun actors => ?_⟩
  obtain ⟨hblameless, hcounted⟩ := Pool.unharmed_follow jugs.agrees_tame rfl hlike
    (hlaunches.watched _ _ hprepare) (hlaunches.blameless _ _ hprepare) actors
  exact ⟨hblameless, le_of_countsOnce hcounted⟩

open PoolSearch in
/-- What pouring can come to is safe. Hence, whoever else is in the world and whenever they ask for a stop, no
search of the puzzle fails, and none expands more than the rim: not in any way in which it can end, not by any
solver within any time, and in no pool as long as it lives. -/
theorem never_spills [Random.Coin ρ] (jugs : Pouring) (others : ω → ω × Bool) :
    (∀ moves contents cost, (Program.pouringRules jugs).Route (0, 0) moves contents cost → jugs.Safe contents) ∧
    (∀ (solver : Solver) (world : ω),
      (∀ outcome, Ends (jugs.problem.amid others) (solver.arena world) solver.strategy outcome →
        ∃ path after, outcome = .ok (some path) after ∧ after.faults = [] ∧
          after.stats.expanded ≤ 2 * (jugs.first.toNat + jugs.second.toNat + 2)) ∧
      ∀ limit, ((solver.trySolve (jugs.problem.amid others) world limit).2.2 = .unfinished ∨
          (solver.trySolve (jugs.problem.amid others) world limit).1.faults = [] ∧
            ∃ path, (solver.trySolve (jugs.problem.amid others) world limit).2.2 = .answered path) ∧
        (solver.trySolve (jugs.problem.amid others) world limit).1.stats.expanded ≤
          2 * (jugs.first.toNat + jugs.second.toNat + 2)) ∧
    ∀ (plan : Plan ρ) (arena : Arena ω),
      (∀ placement, ∃ pool middle,
        prepareConcurrent (jugs.problem.amid others) placement plan arena = .ok pool middle ∧
        ∀ actors, jugs.Dry (pool.follow (jugs.problem.amid others) .whenGenerated actors)) ∧
      ∃ pool middle, prepareAStar (jugs.problem.amid others) plan arena = .ok pool middle ∧
        ∀ actors, jugs.Dry (pool.follow (jugs.problem.amid others) .whenTaken actors) := by
  have hmodest : (jugs.problem : Problem Unit _ _).Modest jugs.tame jugs.states := jugs.modest
  have hlike := jugs.like_amid others
  have hfinished : ∀ path s tries world,
      ((jugs.problem.amid others).onFinished path s tries world).result = .ok () := fun _ _ _ _ => rfl
  refine ⟨fun moves contents cost route => ?_, fun solver world => ⟨fun outcome hends => ?_, fun limit => ?_⟩,
    fun plan arena => ⟨fun placement => ?_, ?_⟩⟩
  · have hroute := (jugs.agrees_tame.route_iff (Program.follows_pouringRules jugs) ()).1 route
    exact (level_of_reachable ⟨_, _, hroute⟩).safe
  · obtain ⟨path, after, houtcome, hfaults, hcount⟩ :=
      hends.unharmed hmodest hlike hfinished ⟨rfl, ⟨rfl, rfl, rfl⟩, rfl⟩
    exact ⟨path, after, houtcome, hfaults, le_of_countsOnce hcount⟩
  · obtain ⟨hending, hcount⟩ := solver.trySolve_unharmed hmodest hlike hfinished world limit
    exact ⟨hending, le_of_countsOnce hcount⟩
  · exact exists_dry hlike (launches_concurrent hmodest hlike placement plan arena)
  · exact exists_dry hlike (launches_aStar hmodest hlike plan arena)

/-- Somebody asks for a stop in the fourth call. -/
def impatient (calls : Nat) : Nat × Bool := (calls + 1, calls == 3)

/-- The first container is filled, and poured into the second one. A search that is stopped before it gets there is
as safe. -/
theorem never_spills_nineAndFour :
    (Program.pouringRules nineAndFour).Route (0, 0) [.fillFirst, .firstIntoSecond] (5, 4) 2 ∧
    nineAndFour.Safe (5, 4) ∧
    (lone.trySolve (nineAndFour.problem.amid impatient) 0 none).1.stats.expanded ≤ 30 := by
  have hfill : (Program.pouringRules nineAndFour).Step (0, 0) .fillFirst (9, 0) 1 :=
    ⟨⟨[.fillFirst, .fillSecond], rfl, by decide⟩, rfl, rfl⟩
  have hpour : (Program.pouringRules nineAndFour).Step (9, 0) .firstIntoSecond (5, 4) 1 :=
    ⟨⟨[.fillSecond, .emptyFirst, .firstIntoSecond], rfl, by decide⟩, rfl, rfl⟩
  have hroute : (Program.pouringRules nineAndFour).Route (0, 0) [.fillFirst, .firstIntoSecond] (5, 4) 2 :=
    (Rules.Route.stay.snoc hfill).snoc hpour
  obtain ⟨hsafe, hsolvers, -⟩ := never_spills (ρ := Unit) nineAndFour impatient
  exact ⟨hroute, hsafe _ _ _ hroute, ((hsolvers lone 0).2 none).2⟩

end StateSearch.Puzzle.Pouring
