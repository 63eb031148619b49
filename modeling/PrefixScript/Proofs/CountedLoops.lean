import PrefixScript.Proofs.DepthLimits
import PrefixScript.Proofs.Increments

/-!
# Counted loops

The counter of a loop is kept by the loop itself: it starts at the first value and one is added
after each round, whatever the body does to the variable of that name or to those in the bounds. So
a loop is the same as its iterations one after the other, up to the first return or failure.

Over whole numbers below `2 ^ 53` these are the iterations of the range. In general a loop ends only
if the counter gets beyond the last value, which it does exactly if that lies below its resting
point.
-/
namespace PrefixScript

namespace Evaluation
open Decimal (IsFinite IsWhole countedFrom countedFrom_succ restingPoint)

/-! ## Iterations -/

/-- Executes what is given in order up to the first return. -/
def inOrder : List (RunM Completion) → RunM Completion
  | [] => return .normal
  | activity :: rest => do
    match ← activity with
    | .returning value => return .returning value
    | .normal => inOrder rest

/-- What is left of some rounds if there is a budget for them, which is also needed to find that
there are no more. -/
def budgeted : (rounds : Nat) → List (RunM Completion) → List (RunM Completion)
  | 0, _ => [throw .unfinished]
  | _ + 1, [] => []
  | rounds + 1, activity :: rest => activity :: budgeted rounds rest

theorem budgeted_of_lt {rounds : Nat} {activities : List (RunM Completion)}
    (h : activities.length < rounds) : budgeted rounds activities = activities := by
  induction activities generalizing rounds with
  | nil =>
    obtain ⟨left, rfl⟩ := Nat.exists_eq_add_one.2 h
    rfl
  | cons activity rest ih =>
    obtain ⟨left, rfl⟩ := Nat.exists_eq_add_one.2 (Nat.zero_lt_of_lt h)
    rw [budgeted, ih (Nat.lt_of_succ_lt_succ h)]

/-- The machine in which the body is executed for a number. -/
def counting (counter : String) (current : Float) (s : Machine) : Machine :=
  { s with frames := s.frames.bind counter (.number current) }

theorem lookup_counting (counter : String) (current : Float) (s : Machine) (site : Option Node) :
    Machine.lookup counter site (counting counter current s) =
      .ok (.number current) (counting counter current s) := by
  have hfind : (counting counter current s).frames.find? counter = some (.number current) := by
    rw [counting, Frames.find?_bind, if_pos rfl]
  rw [Machine.lookup]
  simp only [bind, EStateM.bind, get, getThe, MonadStateOf.get, EStateM.get, hfind]
  rfl

/-- Binds the counter in the top frame and executes the body. -/
def iteration (counter : String) (body : RunM Completion) (current : Float) : RunM Completion := do
  Machine.bind counter (.number current)
  body

/-- The iterations for a number and those that follow it. -/
def iterations (counter : String) (first : Float) (count : Nat) (body : RunM Completion) :
    List (RunM Completion) :=
  (List.range count).map fun steps => iteration counter body (countedFrom first steps)

section Rounds
variable {counter : String} {first last : Float} {body : RunM Completion}

theorem iterations_succ (count : Nat) : iterations counter first (count + 1) body =
    iteration counter body first :: iterations counter (first + 1) count body := by
  unfold iterations
  rw [List.range_succ_eq_map, List.map_cons, List.map_map, countedFrom]
  congr 2
  funext steps
  rw [Function.comp_apply, countedFrom_succ]

/-- The rounds of a loop are its iterations, up to the first number beyond the last value. -/
theorem forRounds_eq (rounds : Nat) {count : Nat}
    (hin : ∀ steps < count, countedFrom first steps ≤ last)
    (hout : ¬ countedFrom first count ≤ last) :
    forRounds counter last body rounds first =
      inOrder (budgeted rounds (iterations counter first count body)) := by
  induction rounds generalizing first count with
  | zero => rfl
  | succ rounds ih =>
    cases count with
    | zero =>
      have hbeyond : ¬ first ≤ last := hout
      rw [forRounds]
      exact if_neg hbeyond
    | succ count =>
      have hle : first ≤ last := hin 0 (Nat.succ_pos count)
      have hrest := @ih (first + 1) count
        (fun steps hs => by rw [← countedFrom_succ]; exact hin _ (Nat.succ_lt_succ hs))
        (by rwa [← countedFrom_succ])
      rw [forRounds, if_pos hle, hrest, iterations_succ, budgeted, inOrder, iteration]
      exact (bind_assoc _ _ _).symm

end Rounds

/-! ## Bounds -/

/-- The bounds of a loop are numbers, found one after the other. -/
def Bounds (rounds depth : Nat) (start stop : Node) (before : Machine) (first last : Float)
    (after : Machine) : Prop :=
  ∃ low high middle, eval rounds depth start before = .ok low middle ∧
    low.toNumber = .ok first ∧ eval rounds depth stop middle = .ok high after ∧
    high.toNumber = .ok last

section Loops
variable {rounds depth : Nat} {counter : String} {start stop : Node} {body : List Node}
  {before after : Machine} {first last : Float}

theorem number_of_toNumber {value : Value} {x : Float} (h : value.toNumber = .ok x) (site : Node)
    (s : Machine) : Machine.number value site s = .ok x s := by
  rw [Machine.number, h]
  rfl

/-- The bounds are found before the first round. -/
theorem exec_forLoop (h : Bounds rounds depth start stop before first last after) :
    exec rounds (depth + 1) (.forLoop counter start stop body) before =
      forRounds counter last (sequence (exec rounds depth) body) rounds first after := by
  obtain ⟨low, high, middle, hlow, hfirst, hhigh, hlast⟩ := h
  rw [exec, bind_of_ok hlow, bind_of_ok (number_of_toNumber hfirst _ _), bind_of_ok hhigh,
    bind_of_ok (number_of_toNumber hlast _ _)]

/-- A loop over whole numbers runs its body for each number of the range, and does nothing if the
range is empty. -/
theorem forLoop_runs_range {a b : Int}
    (h : Bounds rounds depth start stop before first last after)
    (ha : IsWhole first a) (hb : IsWhole last b) (halimit : a.natAbs < 2 ^ 53)
    (hblimit : b.natAbs < 2 ^ 53) :
    (∀ steps < (b + 1 - a).toNat, IsWhole (countedFrom first steps) (a + steps)) ∧
      exec rounds (depth + 1) (.forLoop counter start stop body) before =
        inOrder (budgeted rounds (iterations counter first (b + 1 - a).toNat
          (sequence (exec rounds depth) body))) after ∧
      ((b + 1 - a).toNat < rounds →
        exec rounds (depth + 1) (.forLoop counter start stop body) before =
          inOrder (iterations counter first (b + 1 - a).toNat
            (sequence (exec rounds depth) body)) after) ∧
      (b < a → 0 < rounds →
        exec rounds (depth + 1) (.forLoop counter start stop body) before = .ok .normal after) := by
  have hwhole {steps : Nat} (hs : steps ≤ (b + 1 - a).toNat) :
      IsWhole (countedFrom first steps) (a + steps) :=
    ha.countedFrom (by omega) (by omega)
  have hloop : exec rounds (depth + 1) (.forLoop counter start stop body) before =
      inOrder (budgeted rounds (iterations counter first (b + 1 - a).toNat
        (sequence (exec rounds depth) body))) after := by
    rw [exec_forLoop h]
    refine congrFun (forRounds_eq rounds (fun steps hs => ?_) ?_) after
    · exact ((hwhole (Nat.le_of_lt hs)).le_iff hb).2 (by omega)
    · exact mt ((hwhole (Nat.le_refl _)).le_iff hb).1 (by omega)
  have hbudget (hr : (b + 1 - a).toNat < rounds) :
      exec rounds (depth + 1) (.forLoop counter start stop body) before =
        inOrder (iterations counter first (b + 1 - a).toNat
          (sequence (exec rounds depth) body)) after := by
    rwa [budgeted_of_lt] at hloop
    rwa [iterations, List.length_map, List.length_range]
  refine ⟨fun steps hs => hwhole (Nat.le_of_lt hs), hloop, hbudget, fun hba hr => ?_⟩
  have hempty : (b + 1 - a).toNat = 0 := by omega
  rw [hbudget (by omega), hempty]
  rfl

/-- The body rebinds the counter and the variable of the last value, and the loop takes three
rounds all the same. -/
theorem forLoop_runs_range_rebound :
    let body := [Node.bind "n" (.literal (.number 10)), .bind "i" (.literal (.number 7))]
    let before := counting "n" 3 (Machine.start ⟨.empty, [], fun _ => 0, 0, [], "/"⟩)
    Bounds 4 2 (.literal (.number 1)) (.lookup "n") before 1 3 before ∧ IsWhole 1 1 ∧ IsWhole 3 3 ∧
      exec 4 3 (.forLoop "i" (.literal (.number 1)) (.lookup "n") body) before =
        inOrder (iterations "i" 1 3 (sequence (exec 4 2) body)) before := by
  intro body before
  have hbounds : Bounds 4 2 (.literal (.number 1)) (.lookup "n") before 1 3 before :=
    ⟨_, _, _, rfl, rfl, rfl, rfl⟩
  have hthree : IsWhole 3 3 := by
    have hcounted : countedFrom 1 2 = 3 := by decide +kernel
    have hwhole : IsWhole (countedFrom 1 2) 3 :=
      Decimal.isWhole_one.countedFrom (by decide) (by decide)
    rwa [hcounted] at hwhole
  exact ⟨hbounds, Decimal.isWhole_one, hthree,
    (forLoop_runs_range hbounds Decimal.isWhole_one hthree (by decide) (by decide)).2.2.1
      (by decide)⟩

end Loops

/-! ## Loops that end -/

/-- A body, executed in a machine, ends normally in another, once loops may take enough rounds. -/
def EndsNormally (depth : Nat) (body : List Node) (before after : Machine) : Prop :=
  ∃ rounds, sequence (exec rounds depth) body before = .ok .normal after

/-- A loop begins a round with a number in a machine, if its body ended normally until then. -/
inductive RoundBegins (depth : Nat) (counter : String) (body : List Node) (first last : Float)
    (start : Machine) : Float → Machine → Prop
  | first : RoundBegins depth counter body first last start first start
  | next {current : Float} {s t : Machine} :
    RoundBegins depth counter body first last start current s → current ≤ last →
    EndsNormally depth body (counting counter current s) t →
    RoundBegins depth counter body first last start (current + 1) t

section Budgets
open Machine (Approximates)
variable {rounds more depth : Nat} {body : List Node} {node : Node} {s t : Machine}

/-- Evaluations with a smaller and a larger budget of rounds, and likewise bodies. -/
theorem approximates_of_le (h : rounds ≤ more) (depth : Nat) :
    (∀ node, Approximates (· = .unfinished) (eval rounds depth node) (eval more depth node)) ∧
      ∀ body, Approximates (· = .unfinished) (sequence (exec rounds depth) body)
        (sequence (exec more depth) body) := by
  obtain ⟨left, rfl⟩ := Nat.exists_eq_add_of_le h
  have hcovers : (Machine.approximation (· = .unfinished)).Covers rounds left 0 :=
    Machine.approximation_covers (by rfl) (fun hne => absurd rfl hne) rounds left
  have hrelated := Congruence.relatedAt hcovers depth
  exact ⟨fun node => (hrelated.1 node).1,
    fun body => ((Machine.approximation _).sequence hrelated.2 body).1⟩

/-- What ends with some budget ends alike with any other one that is not spent. -/
theorem eq_or_unfinished {α : Type} {activity : Nat → RunM α} {a : α}
    (happrox : ∀ {rounds more}, rounds ≤ more →
      Approximates (· = .unfinished) (activity rounds) (activity more))
    (h : activity rounds s = .ok a t) (other : Nat) :
    activity other s = .ok a t ∨
      other < rounds ∧ ∃ u, activity other s = .error .unfinished u := by
  rcases Nat.lt_or_ge other rounds with hlt | hge
  · have hends := happrox (Nat.le_of_lt hlt) s
    cases ho : activity other s with
    | ok b u =>
      have hsame := hends.of_ok ho
      rw [h] at hsame
      exact .inl hsame.symm
    | error failure u =>
      rcases hends.of_error ho with hsame | ⟨hspent, -⟩
      · rw [h] at hsame
        cases hsame
      · exact .inr ⟨hlt, u, by rw [hspent]⟩
  · exact .inl ((happrox hge s).of_ok h)

end Budgets

section Endings
variable {rounds depth : Nat} {counter : String} {start stop : Node} {body : List Node}
  {before after s : Machine} {first last current : Float}

theorem Bounds.of_le {more : Nat} (h : Bounds rounds depth start stop before first last after)
    (hle : rounds ≤ more) : Bounds more depth start stop before first last after := by
  obtain ⟨low, high, middle, hlow, hfirst, hhigh, hlast⟩ := h
  have hmore := (approximates_of_le hle depth).1
  exact ⟨low, high, middle, (hmore start before).of_ok hlow, hfirst,
    (hmore stop middle).of_ok hhigh, hlast⟩

/-- Whatever the budget, the bounds are the same unless it is spent for them. -/
theorem Bounds.or_unfinished (h : Bounds rounds depth start stop before first last after)
    (other : Nat) : Bounds other depth start stop before first last after ∨
      ∃ t, exec other (depth + 1) (.forLoop counter start stop body) before =
        .error .unfinished t := by
  obtain ⟨low, high, middle, hlow, hfirst, hhigh, hlast⟩ := h
  have hmore {rounds more : Nat} (hle : rounds ≤ more) := (approximates_of_le hle depth).1
  rcases eq_or_unfinished (fun hle => hmore hle start) hlow other with hs | ⟨-, t, hs⟩
  · rcases eq_or_unfinished (fun hle => hmore hle stop) hhigh other with ht | ⟨-, t, ht⟩
    · exact .inl ⟨low, high, middle, hs, hfirst, ht, hlast⟩
    · exact .inr ⟨t, by rw [exec, bind_of_ok hs, bind_of_ok (number_of_toNumber hfirst _ _),
        bind_of_error ht]⟩
  · exact .inr ⟨t, by rw [exec, bind_of_error hs]⟩

section Bodies
variable (hbody : ∀ current s, RoundBegins depth counter body first last after current s →
  current ≤ last → ∃ t, EndsNormally depth body (counting counter current s) t)
include hbody

/-- Iterations whose bodies end normally end normally, with a budget for each of them. -/
theorem iterations_end {count : Nat}
    (hs : RoundBegins depth counter body first last after current s)
    (hin : ∀ steps < count, countedFrom current steps ≤ last) :
    ∃ needed t, ∀ rounds, needed ≤ rounds →
      inOrder (iterations counter current count (sequence (exec rounds depth) body)) s =
        .ok .normal t := by
  induction count generalizing current s with
  | zero => exact ⟨0, s, fun _ _ => rfl⟩
  | succ count ih =>
    have hle : current ≤ last := hin 0 (Nat.succ_pos count)
    obtain ⟨t, ht⟩ := hbody current s hs hle
    have hrest : ∀ steps < count, countedFrom (current + 1) steps ≤ last := by
      intro steps hsteps
      rw [← countedFrom_succ]
      exact hin _ (Nat.succ_lt_succ hsteps)
    obtain ⟨needed, u, hu⟩ := ih (hs.next hle ht) hrest
    obtain ⟨own, hown⟩ := ht
    refine ⟨max own needed, u, fun rounds hr => ?_⟩
    have hfirst : iteration counter (sequence (exec rounds depth) body) current s =
        .ok .normal t :=
      ((approximates_of_le (by omega) depth).2 body _).of_ok hown
    rw [iterations_succ, inOrder, bind_of_ok hfirst]
    exact hu rounds (by omega)

/-- A loop whose counter does not get beyond the last value spends every budget. -/
theorem forRounds_unfinished (hs : RoundBegins depth counter body first last after current s)
    (hin : ∀ steps, countedFrom current steps ≤ last) (budget rounds : Nat) :
    ∃ t, forRounds counter last (sequence (exec budget depth) body) rounds current s =
      .error .unfinished t := by
  induction rounds generalizing current s with
  | zero => exact ⟨s, rfl⟩
  | succ rounds ih =>
    have hle : current ≤ last := hin 0
    obtain ⟨t, own, hown⟩ := hbody current s hs hle
    have hmore {rounds more : Nat} (hle : rounds ≤ more) := (approximates_of_le hle depth).2 body
    have hbind : Machine.bind counter (.number current) s =
        .ok () (counting counter current s) := rfl
    rw [forRounds, if_pos hle, bind_of_ok hbind]
    rcases eq_or_unfinished hmore hown budget with hb | ⟨-, u, hb⟩
    · rw [bind_of_ok hb]
      exact ih (hs.next hle ⟨own, hown⟩) fun steps => by rw [← countedFrom_succ]; exact hin _
    · exact ⟨u, by rw [bind_of_error hb]⟩

end Bodies

/-- A loop with finite bounds, each execution of whose body ends normally, ends if the last value is
below the resting point of the first one. Else its counter stays at or below the last value forever,
and the loop never ends. -/
theorem forLoop_ends_or_not (h : Bounds rounds depth start stop before first last after)
    (hf : IsFinite first) (hl : IsFinite last)
    (hbody : ∀ current s, RoundBegins depth counter body first last after current s →
      current ≤ last → ∃ t, EndsNormally depth body (counting counter current s) t) :
    (last < restingPoint first → ∃ needed t, ∀ budget, needed ≤ budget →
      exec budget (depth + 1) (.forLoop counter start stop body) before = .ok .normal t) ∧
    (restingPoint first ≤ last → ∀ budget, ∃ t,
      exec budget (depth + 1) (.forLoop counter start stop body) before =
        .error .unfinished t) := by
  constructor
  · intro hlt
    have hexists := Decimal.exists_countedFrom hf hl hlt
    obtain ⟨count, hout, hin⟩ : ∃ count, ¬ countedFrom first count ≤ last ∧
        ∀ steps < count, countedFrom first steps ≤ last :=
      ⟨Nat.find hexists, Nat.find_spec hexists, fun steps hs => not_not.1 (Nat.find_min hexists hs)⟩
    obtain ⟨needed, t, ht⟩ := iterations_end hbody .first hin
    refine ⟨max rounds (max needed (count + 1)), t, fun budget hb => ?_⟩
    have hlength : (iterations counter first count (sequence (exec budget depth) body)).length <
        budget := by
      rw [iterations, List.length_map, List.length_range]
      omega
    rw [exec_forLoop (h.of_le (by omega)), forRounds_eq budget hin hout, budgeted_of_lt hlength]
    exact ht budget (by omega)
  · intro hle budget
    rcases h.or_unfinished budget with hb | hspent
    · rw [exec_forLoop hb]
      exact forRounds_unfinished hbody .first (Decimal.countedFrom_le hf hl hle) budget budget
    · exact hspent

/-- A loop from a fraction on whose body uses the counter ends. -/
theorem forLoop_ends_or_not_fraction :
    let body := [Node.bind "n" (.lookup "i")]
    let before := Machine.start ⟨.empty, [], fun _ => 0, 0, [], "/"⟩
    IsFinite 0.5 ∧ IsFinite 2 ∧ 2 < restingPoint 0.5 ∧
      ∃ needed t, ∀ budget, needed ≤ budget →
        exec budget 3 (.forLoop "i" (.literal (.number 0.5)) (.literal (.number 2)) body) before =
          .ok .normal t := by
  intro body before
  have hbounds : Bounds 0 2 (.literal (.number 0.5)) (.literal (.number 2)) before 0.5 2 before :=
    ⟨_, _, _, rfl, rfl, rfl, rfl⟩
  have hbody (current : Float) (s : Machine) : ∃ t,
      EndsNormally 2 body (counting "i" current s) t := by
    refine ⟨counting "n" current (counting "i" current s), 0, ?_⟩
    rw [sequence, exec, eval, bind_assoc, bind_of_ok (lookup_counting "i" current s _)]
    rfl
  have hfirst : IsFinite 0.5 := by decide
  have hlast : IsFinite 2 := by decide
  have hlt : 2 < restingPoint 0.5 := by decide
  exact ⟨hfirst, hlast, hlt,
    (forLoop_ends_or_not hbounds hfirst hlast fun current s _ _ => hbody current s).1 hlt⟩

/-- A loop over one number that never ends although its body always ends normally: adding one to
`2 ^ 53` gives `2 ^ 53`. -/
theorem forLoop_endless :
    let bound := Node.literal (.number 9007199254740992)
    let before := Machine.start ⟨.empty, [], fun _ => 0, 0, [], "/"⟩
    IsFinite 9007199254740992 ∧
      (∀ rounds s, sequence (exec rounds 1) [] s = .ok .normal s) ∧
      ∀ rounds, ∃ t, exec rounds 2 (.forLoop "i" bound bound []) before = .error .unfinished t := by
  intro bound before
  have hfinite : IsFinite 9007199254740992 := by decide
  have hrest : restingPoint 9007199254740992 ≤ 9007199254740992 := by decide
  have hbounds (rounds : Nat) :
      Bounds rounds 1 bound bound before 9007199254740992 9007199254740992 before :=
    ⟨_, _, _, rfl, rfl, rfl, rfl⟩
  refine ⟨hfinite, fun _ _ => rfl, fun rounds => ?_⟩
  rw [exec_forLoop (hbounds rounds)]
  exact forRounds_unfinished (fun _ _ _ _ => ⟨_, 0, rfl⟩) .first
    (Decimal.countedFrom_le hfinite hfinite hrest) rounds rounds

end Endings

end Evaluation

end PrefixScript
