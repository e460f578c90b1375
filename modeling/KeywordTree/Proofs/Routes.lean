import KeywordTree.Tree.Census
import Mathlib.Data.List.Nodup

/-! The accepting leaves of a tree with the ways that lead to them. In a tree whose arms
have distinct keys a candidate is accepted by the one leaf whose way it takes. -/
namespace KeywordTree

inductive Step where
  | arm (subject : Subject) (key : Nat)
  /-- Past a dispatch that has arms for these keys only. -/
  | otherwise (subject : Subject) (keys : List Nat)
  /-- Past a tail comparison that fails. -/
  | mismatch (checks : List Check)
  deriving DecidableEq, Repr

def Step.Taken (candidate : Candidate) : Step → Prop
  | arm subject key => subject.read candidate = some key
  | otherwise subject keys => ∀ key ∈ keys, subject.read candidate ≠ some key
  | mismatch checks => checks.all (Check.holds candidate) = false

def Step.column? : Step → Option Nat
  | arm (.column k) _ => some k
  | otherwise (.column k) _ => some k
  | _ => none

inductive Leaf where
  | accept
  | verify (checks : List Check)
  | guess (unverified : Nat)
  deriving DecidableEq, Repr

def Leaf.Holds (candidate : Candidate) : Leaf → Prop
  | verify checks => checks.all (Check.holds candidate) = true
  | _ => True

/-- An accepting leaf, its word and the steps that lead to it. -/
structure Route where
  steps : List Step
  word : Word
  leaf : Leaf
  deriving DecidableEq

namespace Route

def after (step : Step) (route : Route) : Route := { route with steps := step :: route.steps }

def columns (route : Route) : List Nat := route.steps.filterMap Step.column?

def Accepts (candidate : Candidate) (route : Route) : Prop :=
  (∀ step ∈ route.steps, step.Taken candidate) ∧ route.leaf.Holds candidate

def outcome (route : Route) : Outcome :=
  match route.leaf with
  | .guess _ => .guessed route.word
  | _ => .accepted route.word

@[simp] theorem word_after (step : Step) (route : Route) : (route.after step).word = route.word := rfl

@[simp] theorem leaf_after (step : Step) (route : Route) : (route.after step).leaf = route.leaf := rfl

@[simp] theorem steps_after (step : Step) (route : Route) : (route.after step).steps = step :: route.steps := rfl

@[simp] theorem outcome_after (step : Step) (route : Route) : (route.after step).outcome = route.outcome := rfl

@[simp] theorem accepts_after {candidate : Candidate} {step : Step} {route : Route} :
    (route.after step).Accepts candidate ↔ step.Taken candidate ∧ route.Accepts candidate := by
  simp [Accepts, and_assoc]

end Route

mutual

/-- The accepting leaves at and below a node, in preorder. -/
def Node.routes : Node → List Route
  | .dispatch subject _ arms otherwise =>
    armRoutes subject arms ++ otherwise.routes.map (Route.after (.otherwise subject (arms.map Prod.fst)))
  | .verify checks word otherwise =>
    ⟨[], word, .verify checks⟩ :: otherwise.routes.map (Route.after (.mismatch checks))
  | .accept word => [⟨[], word, .accept⟩]
  | .guess word unverified => [⟨[], word, .guess unverified⟩]
  | .reject => []

def armRoutes (subject : Subject) : List (Nat × Node) → List Route
  | [] => []
  | (key, node) :: rest => node.routes.map (Route.after (.arm subject key)) ++ armRoutes subject rest

end

theorem armRoutes_eq_flatMap (subject : Subject) (arms : List (Nat × Node)) :
    armRoutes subject arms = arms.flatMap fun arm => arm.2.routes.map (Route.after (.arm subject arm.1)) := by
  induction arms with
  | nil => rfl
  | cons arm rest ih => rw [armRoutes, ih, List.flatMap_cons]

theorem mem_armRoutes {subject : Subject} {arms : List (Nat × Node)} {route : Route} :
    route ∈ armRoutes subject arms ↔
      ∃ arm ∈ arms, ∃ below ∈ arm.2.routes, below.after (.arm subject arm.1) = route := by
  simp [armRoutes_eq_flatMap]

theorem evaluateArm_of_mem {candidate : Candidate} {arms : List (Nat × Node)} (hk : (arms.map Prod.fst).Nodup)
    {arm : Nat × Node} (ha : arm ∈ arms) : evaluateArm candidate arm.1 arms = some (arm.2.evaluate candidate) := by
  induction arms with
  | nil => cases ha
  | cons first rest ih =>
    obtain ⟨hn, hr⟩ := List.nodup_cons.mp hk
    rcases List.mem_cons.mp ha with rfl | ha
    · rw [evaluateArm, if_pos rfl]
    · have hne : first.1 ≠ arm.1 := fun he => hn (he ▸ List.mem_map_of_mem ha)
      rw [evaluateArm, if_neg hne, ih hr ha]

theorem evaluateArm_eq_none {candidate : Candidate} {key : Nat} {arms : List (Nat × Node)}
    (h : ∀ arm ∈ arms, arm.1 ≠ key) : evaluateArm candidate key arms = none := by
  induction arms with
  | nil => rfl
  | cons first rest ih =>
    rw [evaluateArm, if_neg (h first List.mem_cons_self),
      ih fun arm ha => h arm (List.mem_cons_of_mem first ha)]

/-- Trees in which the arms of every dispatch have distinct keys. -/
inductive Node.Orderly : Node → Prop where
  | dispatch {subject : Subject} {mode : Mode} {arms : List (Nat × Node)} {otherwise : Node}
    (hk : (arms.map Prod.fst).Nodup) (ha : ∀ arm ∈ arms, arm.2.Orderly) (ho : otherwise.Orderly) :
    Node.Orderly (.dispatch subject mode arms otherwise)
  | verify {checks : List Check} {word : Word} {otherwise : Node} (ho : otherwise.Orderly) :
    Node.Orderly (.verify checks word otherwise)
  | accept (word : Word) : Node.Orderly (.accept word)
  | guess (word : Word) (unverified : Nat) : Node.Orderly (.guess word unverified)
  | reject : Node.Orderly .reject

/-- What a dispatch comes to: the arm whose key is read, or what follows the arms. -/
theorem evaluate_dispatch {subject : Subject} {mode : Mode} {arms : List (Nat × Node)} {otherwise : Node}
    (hk : (arms.map Prod.fst).Nodup) (candidate : Candidate) :
    (∃ arm ∈ arms, subject.read candidate = some arm.1 ∧
      (Node.dispatch subject mode arms otherwise).evaluate candidate = arm.2.evaluate candidate) ∨
    (∀ arm ∈ arms, subject.read candidate ≠ some arm.1) ∧
      (Node.dispatch subject mode arms otherwise).evaluate candidate = otherwise.evaluate candidate := by
  rw [Node.evaluate]
  cases hr : subject.read candidate with
  | none => exact .inr ⟨by simp, rfl⟩
  | some key =>
    by_cases hm : ∃ arm ∈ arms, arm.1 = key
    · obtain ⟨arm, ha, rfl⟩ := hm
      exact .inl ⟨arm, ha, rfl, by simp only [evaluateArm_of_mem hk ha]⟩
    · have hm : ∀ arm ∈ arms, arm.1 ≠ key := fun arm ha he => hm ⟨arm, ha, he⟩
      refine .inr ⟨fun arm ha he => hm arm ha (Option.some.inj he).symm, ?_⟩
      simp only [evaluateArm_eq_none hm]

theorem evaluate_of_accepts {node : Node} (hn : node.Orderly) {candidate : Candidate} {route : Route}
    (hm : route ∈ node.routes) (ha : route.Accepts candidate) : node.evaluate candidate = route.outcome := by
  induction hn generalizing route with
  | @dispatch subject mode arms otherwise hk _ _ iha iho =>
    rw [Node.routes, List.mem_append, mem_armRoutes, List.mem_map] at hm
    rcases evaluate_dispatch hk candidate with ⟨arm, harm, hread, he⟩ | ⟨hread, he⟩
    · rw [he]
      rcases hm with ⟨other, hother, below, hb, rfl⟩ | ⟨below, hb, rfl⟩
      · -- The candidate also takes the step into the other arm, and keys are distinct.
        obtain ⟨ht, ha⟩ := Route.accepts_after.mp ha
        have hkey : other.1 = arm.1 := Option.some.inj (ht.symm.trans hread)
        obtain rfl : other = arm := List.inj_on_of_nodup_map hk hother harm hkey
        rw [Route.outcome_after]
        exact iha other hother hb ha
      · obtain ⟨ht, _⟩ := Route.accepts_after.mp ha
        exact absurd hread (ht arm.1 (List.mem_map_of_mem harm))
    · rw [he]
      rcases hm with ⟨arm, harm, below, hb, rfl⟩ | ⟨below, hb, rfl⟩
      · exact absurd (Route.accepts_after.mp ha).1 (hread arm harm)
      · rw [Route.outcome_after]
        exact iho hb (Route.accepts_after.mp ha).2
  | @verify checks word otherwise _ iho =>
    rw [Node.evaluate]
    rcases List.mem_cons.mp hm with rfl | hm
    · have hc : checks.all (Check.holds candidate) = true := ha.2
      rw [if_pos hc]
      rfl
    · obtain ⟨below, hb, rfl⟩ := List.mem_map.mp hm
      obtain ⟨ht, ha⟩ := Route.accepts_after.mp ha
      rw [if_neg (Bool.eq_false_iff.mp ht), Route.outcome_after]
      exact iho hb ha
  | accept word =>
    obtain rfl := List.mem_singleton.mp hm
    rfl
  | guess word unverified =>
    obtain rfl := List.mem_singleton.mp hm
    rfl
  | reject => cases hm

theorem exists_accepts {node : Node} (hn : node.Orderly) {candidate : Candidate}
    (h : node.evaluate candidate ≠ .rejected) : ∃ route ∈ node.routes, route.Accepts candidate := by
  induction hn with
  | @dispatch subject mode arms otherwise hk _ _ iha iho =>
    rcases evaluate_dispatch hk candidate with ⟨arm, harm, hread, he⟩ | ⟨hread, he⟩
    · rw [he] at h
      obtain ⟨below, hb, ha⟩ := iha arm harm h
      refine ⟨below.after (.arm subject arm.1), ?_, Route.accepts_after.mpr ⟨hread, ha⟩⟩
      rw [Node.routes]
      exact List.mem_append_left _ (mem_armRoutes.mpr ⟨arm, harm, below, hb, rfl⟩)
    · rw [he] at h
      obtain ⟨below, hb, ha⟩ := iho h
      refine ⟨below.after (.otherwise subject (arms.map Prod.fst)), ?_, Route.accepts_after.mpr ⟨?_, ha⟩⟩
      · rw [Node.routes]
        exact List.mem_append_right _ (List.mem_map_of_mem hb)
      · intro key hk
        obtain ⟨arm, harm, rfl⟩ := List.mem_map.mp hk
        exact hread arm harm
  | @verify checks word otherwise _ iho =>
    rw [Node.evaluate] at h
    rw [Node.routes]
    by_cases hc : checks.all (Check.holds candidate) = true
    · exact ⟨_, List.mem_cons_self, by simp, hc⟩
    · rw [if_neg hc] at h
      obtain ⟨below, hb, ha⟩ := iho h
      refine ⟨below.after (.mismatch checks), List.mem_cons_of_mem _ (List.mem_map_of_mem hb), ?_⟩
      exact Route.accepts_after.mpr ⟨Bool.eq_false_iff.mpr hc, ha⟩
  | accept word => exact ⟨_, List.mem_cons_self, by simp, trivial⟩
  | guess word unverified => exact ⟨_, List.mem_cons_self, by simp, trivial⟩
  | reject => exact absurd rfl h

/-- Following a tree to an acceptance is taking the way to a leaf with that outcome. -/
theorem evaluate_eq_iff {node : Node} (hn : node.Orderly) (candidate : Candidate) {outcome : Outcome}
    (h : outcome ≠ .rejected) :
    node.evaluate candidate = outcome ↔ ∃ route ∈ node.routes, route.Accepts candidate ∧ route.outcome = outcome := by
  constructor
  · rintro rfl
    obtain ⟨route, hm, ha⟩ := exists_accepts hn h
    exact ⟨route, hm, ha, (evaluate_of_accepts hn hm ha).symm⟩
  · rintro ⟨route, hm, ha, rfl⟩
    exact evaluate_of_accepts hn hm ha

def Node.leaf? : Node → Option (Word × Leaf)
  | .verify checks word _ => some (word, .verify checks)
  | .accept word => some (word, .accept)
  | .guess word unverified => some (word, .guess unverified)
  | _ => none

mutual

/-- The accepting nodes in preorder are the ends of the routes. -/
theorem Node.filterMap_leaf?_preorder (depth : Nat) : (node : Node) →
    (node.preorder depth).filterMap (fun entry => entry.2.leaf?) = node.routes.map fun route => (route.word, route.leaf)
  | .dispatch subject mode arms otherwise => by
    rw [Node.preorder, Node.routes, List.filterMap_cons_none rfl, List.filterMap_append, List.map_append,
      filterMap_leaf?_preorderArms, Node.filterMap_leaf?_preorder, List.map_map]
    rfl
  | .verify checks word otherwise => by
    have hrest := Node.filterMap_leaf?_preorder (depth + 1) otherwise
    change (word, Leaf.verify checks) :: (otherwise.preorder (depth + 1)).filterMap _ = _
    rw [hrest, Node.routes, List.map_cons, List.map_map]
    rfl
  | .accept word => rfl
  | .guess word unverified => rfl
  | .reject => rfl

theorem filterMap_leaf?_preorderArms (depth : Nat) (subject : Subject) : (arms : List (Nat × Node)) →
    (preorderArms depth arms).filterMap (fun entry => entry.2.leaf?) =
      (armRoutes subject arms).map fun route => (route.word, route.leaf)
  | [] => rfl
  | (key, node) :: rest => by
    rw [preorderArms, armRoutes, List.filterMap_append, List.map_append, filterMap_leaf?_preorderArms depth subject rest,
      Node.filterMap_leaf?_preorder depth node, List.map_map]
    rfl

end

end KeywordTree
