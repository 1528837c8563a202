import Mathlib.Data.Int.GCD
import StateSearch.Proofs.Decision
import StateSearch.Proofs.Puzzle.Pouring

/-!
# What can be measured by pouring

The amounts that pouring comes to are multiples of the greatest common divisor of the two sizes. All of these
that fit into a container can be had in it: fill the other one, pour it over, and empty the first whenever it is
full; this goes through the multiples of the one size modulo the other (`Pouring.Attained.cycle`). So the puzzle
has a solution if and only if its target is one of them (`Pouring.solvable_iff`), and every search finds out.
-/

namespace StateSearch.Puzzle.Pouring

variable {jugs : Pouring} {contents : Contents}

/-- The target fits into one of the containers, and is a multiple of the greatest common divisor of their
sizes. -/
def Measurable (jugs : Pouring) : Prop :=
  jugs.target.toNat ≤ max jugs.first.toNat jugs.second.toNat ∧
    Nat.gcd jugs.first.toNat jugs.second.toNat ∣ jugs.target.toNat

instance (jugs : Pouring) : Decidable jugs.Measurable := inferInstanceAs (Decidable (_ ∧ _))

/-! ### Pouring numbers -/

/-- Multiples of the greatest common divisor are multiples of the one number modulo the other. -/
theorem exists_mul_mod_eq {first second target : Nat} (hdvd : Nat.gcd first second ∣ target)
    (hlt : target < second) : ∃ k, k * first % second = target := by
  obtain ⟨c, rfl⟩ := hdvd
  rcases Nat.lt_or_ge (Nat.gcd first second) second with hgcd | hgcd
  · obtain ⟨m, -, hm⟩ := Nat.exists_mul_mod_eq_gcd hgcd
    refine ⟨m * c, ?_⟩
    calc m * c * first % second = first * m * c % second := by
          rw [Nat.mul_comm, Nat.mul_assoc]
      _ = first * m % second * c % second := (Nat.mod_mul_mod _ _ _).symm
      _ = Nat.gcd first second * c := by rw [hm, Nat.mod_eq_of_lt hlt]
  · -- The second number divides the first, and only zero is left.
    have hc : c = 0 := by
      by_contra hne
      have hle := Nat.le_mul_of_pos_right (Nat.gcd first second) (Nat.pos_of_ne_zero hne)
      omega
    subst hc
    exact ⟨0, by rw [Nat.zero_mul, Nat.zero_mod, Nat.mul_zero]⟩

/-- What a pour makes of these amounts, in containers of the given sizes. -/
def pourNat (first second : Nat) : Nat × Nat → Pour → Nat × Nat
  | (_, y), .fillFirst => (first, y)
  | (x, _), .fillSecond => (x, second)
  | (_, y), .emptyFirst => (0, y)
  | (x, _), .emptySecond => (x, 0)
  | (x, y), .firstIntoSecond => (x - min x (second - y), y + min x (second - y))
  | (x, y), .secondIntoFirst => (x + min y (first - x), y - min y (first - x))

/-- These amounts can be had in containers of the given sizes. -/
inductive Attained (first second : Nat) : Nat × Nat → Prop
  | start : Attained first second (0, 0)
  | pour {amounts : Nat × Nat} (h : Attained first second amounts) (move : Pour) :
    Attained first second (pourNat first second amounts move)

namespace Attained

variable {first second x y g : Nat} {amounts : Nat × Nat}

theorem le (h : Attained first second amounts) : amounts.1 ≤ first ∧ amounts.2 ≤ second := by
  induction h with
  | start => exact ⟨Nat.zero_le _, Nat.zero_le _⟩
  | @pour amounts h move ih =>
    obtain ⟨x, y⟩ := amounts
    obtain ⟨hx, hy⟩ : x ≤ first ∧ y ≤ second := ih
    cases move <;> simp only [pourNat] <;> omega

/-- What divides both sizes divides all amounts. -/
theorem dvd (hfirst : g ∣ first) (hsecond : g ∣ second) (h : Attained first second amounts) :
    g ∣ amounts.1 ∧ g ∣ amounts.2 := by
  have hmin : ∀ {source room : Nat}, g ∣ source → g ∣ room → g ∣ min source room := by
    intro source room hs hr
    rcases Nat.le_total source room with hle | hle
    · rwa [Nat.min_eq_left hle]
    · rwa [Nat.min_eq_right hle]
  induction h with
  | start => exact ⟨Nat.dvd_zero _, Nat.dvd_zero _⟩
  | @pour amounts h move ih =>
    obtain ⟨x, y⟩ := amounts
    obtain ⟨hx, hy⟩ : g ∣ x ∧ g ∣ y := ih
    cases move with
    | fillFirst => exact ⟨hfirst, hy⟩
    | fillSecond => exact ⟨hx, hsecond⟩
    | emptyFirst => exact ⟨Nat.dvd_zero _, hy⟩
    | emptySecond => exact ⟨hx, Nat.dvd_zero _⟩
    | firstIntoSecond =>
      have hmoved := hmin hx (Nat.dvd_sub hsecond hy)
      exact ⟨Nat.dvd_sub hx hmoved, Nat.dvd_add hy hmoved⟩
    | secondIntoFirst =>
      have hmoved := hmin hy (Nat.dvd_sub hfirst hx)
      exact ⟨Nat.dvd_add hx hmoved, Nat.dvd_sub hy hmoved⟩

/-- It does not matter which container is called the first. -/
theorem swap (h : Attained first second amounts) : Attained second first amounts.swap := by
  induction h with
  | start => exact .start
  | pour h move ih =>
    cases move with
    | fillFirst => exact ih.pour .fillSecond
    | fillSecond => exact ih.pour .fillFirst
    | emptyFirst => exact ih.pour .emptySecond
    | emptySecond => exact ih.pour .emptyFirst
    | firstIntoSecond => exact ih.pour .secondIntoFirst
    | secondIntoFirst => exact ih.pour .firstIntoSecond

/-- All that is there can be poured into the second container, which is emptied when it is full. -/
theorem settle (hpos : 0 < second) (h : Attained first second (x, y)) :
    Attained first second (0, (x + y) % second) := by
  induction hsum : x + y using Nat.strong_induction_on generalizing x y with
  | _ sum ih =>
    subst hsum
    have hy : y ≤ second := h.le.2
    have hpoured : Attained first second (x - min x (second - y), y + min x (second - y)) :=
      h.pour .firstIntoSecond
    by_cases hfits : x + y < second
    · have hx : min x (second - y) = x := by omega
      rw [hx, Nat.sub_self, Nat.add_comm] at hpoured
      rwa [Nat.mod_eq_of_lt hfits]
    · have hemptied : Attained first second (x + y - second, 0) := by
        have hrest : x - min x (second - y) = x + y - second := by omega
        exact hrest ▸ hpoured.pour .emptySecond
      have hsettled := ih (x + y - second + 0) (by omega) hemptied rfl
      rwa [Nat.add_zero, ← Nat.mod_eq_sub_mod (Nat.not_lt.1 hfits)] at hsettled

/-- The multiples of the first size, modulo the second. -/
theorem cycle (hpos : 0 < second) (k : Nat) : Attained first second (0, k * first % second) := by
  induction k with
  | zero =>
    rw [Nat.zero_mul, Nat.zero_mod]
    exact .start
  | succ k ih =>
    have hsettled := (ih.pour .fillFirst).settle hpos
    rwa [Nat.add_mod_mod, Nat.add_comm, ← Nat.succ_mul] at hsettled

theorem exists_of_dvd {target : Nat} (hdvd : Nat.gcd first second ∣ target) (hle : target ≤ second) :
    ∃ x, Attained first second (x, target) := by
  rcases Nat.eq_or_lt_of_le hle with rfl | hlt
  · exact ⟨0, start.pour .fillSecond⟩
  · obtain ⟨k, rfl⟩ := exists_mul_mod_eq hdvd hlt
    exact ⟨0, cycle (Nat.zero_lt_of_lt hlt) k⟩

end Attained

/-! ### Pouring words -/

/-- The contents, as numbers. -/
def measure (contents : Contents) : Nat × Nat := (contents.1.toNat, contents.2.toNat)

theorem Level.measure_applyMove (h : jugs.Level contents) (move : Pour) :
    measure (jugs.tame.applyMove contents move) =
      pourNat jugs.first.toNat jugs.second.toNat (measure contents) move := by
  obtain ⟨hfirst, hsecond, -⟩ := h
  have hpour : ∀ {next}, jugs.pour contents move = .ok next →
      jugs.tame.applyMove contents move = next := fun hnext => by
    simp only [tame, hnext]
    rfl
  cases move with
  | firstIntoSecond =>
    obtain ⟨hless, hmore⟩ := toNat_transfer contents.1 hsecond
    rw [hpour (show _ = Except.ok (_, _) by simp only [Pouring.pour, room, if_pos hsecond]; rfl)]
    exact Prod.ext hless hmore
  | secondIntoFirst =>
    obtain ⟨hless, hmore⟩ := toNat_transfer contents.2 hfirst
    rw [hpour (show _ = Except.ok (_, _) by simp only [Pouring.pour, room, if_pos hfirst]; rfl)]
    exact Prod.ext hmore hless
  | _ => rfl

theorem attained_of_reachable (h : jugs.tame.Reachable contents) :
    Attained jugs.first.toNat jugs.second.toNat (measure contents) := by
  obtain ⟨moves, c, route⟩ := h
  induction route with
  | stay => exact .start
  | snoc route step ih =>
    obtain ⟨-, rfl, -⟩ := PureProblem.step_rules_iff.1 step
    rw [(level_of_reachable ⟨_, _, route⟩).measure_applyMove]
    exact ih.pour _

/-- A pour that changes nothing is not legal, and not missed. -/
theorem reachable_applyMove (h : jugs.tame.Reachable contents) (move : Pour) :
    jugs.tame.Reachable (jugs.tame.applyMove contents move) := by
  by_cases hsame : jugs.tame.applyMove contents move = contents
  · rwa [hsame]
  · refine h.step ?_
    rw [(level_of_reachable h).legalMoves_eq, List.mem_filter]
    exact ⟨by cases move <;> decide, by simpa using hsame⟩

theorem exists_reachable_of_attained {amounts : Nat × Nat}
    (h : Attained jugs.first.toNat jugs.second.toNat amounts) :
    ∃ contents, jugs.tame.Reachable contents ∧ measure contents = amounts := by
  induction h with
  | start => exact ⟨(0, 0), ⟨_, _, .stay⟩, rfl⟩
  | pour _ move ih =>
    obtain ⟨contents, hreach, rfl⟩ := ih
    exact ⟨_, reachable_applyMove hreach move, (level_of_reachable hreach).measure_applyMove move⟩

theorem isGoal_iff : jugs.isGoal contents = true ↔
    (measure contents).1 = jugs.target.toNat ∨ (measure contents).2 = jugs.target.toNat := by
  simp only [isGoal, measure, Bool.or_eq_true, beq_iff_eq, UInt32.toNat_inj]

/-- What can be measured is what divides, and fits. -/
theorem solvable_iff (jugs : Pouring) : jugs.tame.Solvable ↔ jugs.Measurable := by
  constructor
  · rintro ⟨contents, hreach, hgoal⟩
    have hattained := attained_of_reachable hreach
    obtain ⟨hfirst, hsecond⟩ := hattained.le
    obtain ⟨hdvd, hdvd'⟩ := hattained.dvd (Nat.gcd_dvd_left _ _) (Nat.gcd_dvd_right _ _)
    rcases isGoal_iff.1 hgoal with htarget | htarget
    · rw [htarget] at hfirst hdvd
      exact ⟨Nat.le_trans hfirst (Nat.le_max_left _ _), hdvd⟩
    · rw [htarget] at hsecond hdvd'
      exact ⟨Nat.le_trans hsecond (Nat.le_max_right _ _), hdvd'⟩
  · rintro ⟨hle, hdvd⟩
    rcases le_max_iff.1 hle with hle | hle
    · rw [Nat.gcd_comm] at hdvd
      obtain ⟨y, hattained⟩ := Attained.exists_of_dvd hdvd hle
      obtain ⟨contents, hreach, hmeasure⟩ := exists_reachable_of_attained hattained.swap
      exact ⟨contents, hreach, isGoal_iff.2 (.inl (congrArg Prod.fst hmeasure))⟩
    · obtain ⟨x, hattained⟩ := Attained.exists_of_dvd hdvd hle
      obtain ⟨contents, hreach, hmeasure⟩ := exists_reachable_of_attained hattained
      exact ⟨contents, hreach, isGoal_iff.2 (.inr (congrArg Prod.snd hmeasure))⟩

/-! ### What searches answer -/

variable {ω ρ : Type}

theorem modest (jugs : Pouring) : (jugs.problem : Problem ω _ _).Modest jugs.tame jugs.states where
  agrees := jugs.agrees_tame
  record := rfl
  consistent := jugs.consistent_tame
  confines := jugs.confines_states
  initial := jugs.initial_mem_states
  few := by
    have hefforts := jugs.efforts_states_le
    have hlimit : PoolSearch.stepLimit = 2 ^ 62 := rfl
    omega
  once hcourse := nodup_course hcourse

open PoolSearch in
/-- Every solver answers with a path if and only if the target can be measured. Those whose workers could be
several do so with one. Where workers search in whatever order they take their steps, however many there are
and wherever they place their nodes, that is also what they find out. -/
theorem answered_iff_measurable [Random.Coin ρ] (jugs : Pouring) :
    (∀ (solver : Solver) (world : ω), (solver.strategy.isShared = true → solver.workers = 1) →
      ∃ path, (solver.solve jugs.problem world).2.2 = .answered path ∧
        (solver.trySolve jugs.problem world).2.2 = .answered path ∧
        (path.isSome = true ↔ jugs.Measurable)) ∧
    ∀ (plan : Plan ρ) (arena : Arena ω), plan.coins ≠ [] → arena.stopped = false →
      (∀ placement, ∃ pool, prepareConcurrent jugs.problem placement plan arena = .ok pool arena ∧
        Decides jugs.problem .whenGenerated pool arena jugs.Measurable) ∧
      ∃ pool, prepareAStar jugs.problem plan arena = .ok pool arena ∧
        Decides jugs.problem .whenTaken pool arena jugs.Measurable := by
  rw [← solvable_iff]
  constructor
  · intro solver world hone
    exact Solver.exists_answered (Solver.search_answers jugs.modest hone)
  · intro plan arena hcoins hopen
    have hne : ∀ {F : Type} {pool : Pool ω Contents Pour F ρ},
        pool.workers.length = plan.coins.length → pool.workers ≠ [] := fun hlength =>
      List.ne_nil_of_length_pos (hlength ▸ List.length_pos_iff.2 hcoins)
    constructor
    · intro placement
      obtain ⟨pool, hprepare, hbegins, hlength⟩ :=
        exists_prepareConcurrent (modest jugs) placement plan hopen
      exact ⟨pool, hprepare, decides_of_begins jugs.modest hbegins (hne hlength)⟩
    · obtain ⟨pool, hprepare, hbegins, hlength⟩ := exists_prepareAStar (modest jugs) plan hopen
      exact ⟨pool, hprepare, decides_of_begins jugs.modest hbegins (hne hlength)⟩

/-! ### An example -/

def nineAndFour : Pouring := ⟨9, 4, 6⟩

def sixAndFour : Pouring := ⟨6, 4, 5⟩

/-- A solver with one worker, who tosses a coin where to put new nodes. -/
def lone : Solver := (Solver.new .concurrent { breadthBias := 0.5 }).withWorkers 1

open PoolSearch in
/-- Six can be measured with nine and four, but five not with six and four. -/
theorem answered_nineAndFour :
    (lone.strategy.isShared = true → lone.workers = 1) ∧
    (∃ path, (lone.solve nineAndFour.problem ()).2.2 = .answered (some path)) ∧
    (lone.solve sixAndFour.problem ()).2.2 = .answered none ∧
    ([(), ()] : List Unit) ≠ [] ∧
    (∃ pool, prepareConcurrent nineAndFour.problem .tail ⟨(), [(), ()]⟩ { world := () } =
        .ok pool { world := () } ∧
      Decides nineAndFour.problem .whenGenerated pool { world := () } nineAndFour.Measurable) ∧
    ∃ pool, prepareAStar nineAndFour.problem ⟨(), [(), ()]⟩ { world := () } = .ok pool { world := () } ∧
      Decides nineAndFour.problem .whenTaken pool { world := () } nineAndFour.Measurable := by
  have hone : lone.strategy.isShared = true → lone.workers = 1 := fun _ => rfl
  obtain ⟨hsolver, hpools⟩ := answered_iff_measurable (ω := Unit) (ρ := Unit) nineAndFour
  obtain ⟨path, hfound, -, hiff⟩ := hsolver lone () hone
  obtain ⟨path', hnone, -, hiff'⟩ :=
    (answered_iff_measurable (ω := Unit) (ρ := Unit) sixAndFour).1 lone () hone
  obtain ⟨hconcurrent, haStar⟩ := hpools ⟨(), [(), ()]⟩ { world := () } nofun rfl
  refine ⟨hone, ?_, ?_, nofun, hconcurrent .tail, haStar⟩
  · obtain ⟨found, rfl⟩ := Option.isSome_iff_exists.1 (hiff.2 (by decide))
    exact ⟨found, hfound⟩
  · have hno : ¬ path'.isSome = true := fun hsome => absurd (hiff'.1 hsome) (by decide)
    rw [Option.not_isSome_iff_eq_none] at hno
    rw [hnone, hno]

end StateSearch.Puzzle.Pouring
