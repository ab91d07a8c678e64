import FabricOev.Policy.Cauthdsl

/-!
# Implicit meta policies

There is a policy manager for each group of a configuration. The sub-groups of a group are
committed before it; its implicit meta policies then look their sub-policy up in each of them
and fix how many have to accept. Lists are in the order in which the maps are ranged over.
-/

namespace FabricOev.Policy

open Go List

/-- `Policy`: of a provider; `rejectPolicy`; or an `implicitMetaPolicy` that has been initialized.
-/
inductive CommittedPolicy where
  | provided (evaluate : List SignedData → Option GoError)
  | reject (id : GoString)
  | implicitMeta (threshold : Nat) (subPolicies : List CommittedPolicy)

namespace CommittedPolicy

mutual

def evaluate (signatureSet : List SignedData) : CommittedPolicy → Option GoError
  | .provided evaluate => evaluate signatureSet
  | .reject id => some (.text (str "No such policy type: " ++ id))
  | .implicitMeta threshold subPolicies =>
    (evaluateLoop signatureSet subPolicies threshold).map fun remaining =>
      .text (str "Failed to reach implicit threshold of " ++ formatNat threshold ++
        str " sub-policies, required " ++ formatInt (.ofInt remaining) ++ str " remaining")

/-- The loop of `implicitMetaPolicy.Evaluate`: nil, or the number that is left. -/
def evaluateLoop (signatureSet : List SignedData) : List CommittedPolicy → Int → Option Int
  | [], remaining => if remaining = 0 then none else some remaining
  | policy :: rest, remaining =>
    if policy.evaluate signatureSet = none then
      if remaining - 1 = 0 then none else evaluateLoop signatureSet rest (remaining - 1)
    else evaluateLoop signatureSet rest remaining

end

abbrev Accepts (policy : CommittedPolicy) (signatureSet : List SignedData) : Prop :=
  policy.evaluate signatureSet = none

end CommittedPolicy

abbrev Rule := Int32

/-- `ANY`, `ALL` or `MAJORITY`. -/
def Rule.Named (rule : Rule) : Prop := rule = 0 ∨ rule = 1 ∨ rule = 2

/-- The threshold that `initialize` sets, for `n` sub-policies. -/
def Rule.threshold (rule : Rule) (n : Nat) : Nat :=
  if n = 0 then 0
  else if rule = 0 then 1
  else if rule = 1 then n
  else if rule = 2 then n / 2 + 1
  else 0

/-- A policy of a group as it is proposed. -/
inductive ProposedPolicy where
  | provided (evaluate : List SignedData → Option GoError)
  | implicitMeta (rule : Rule) (subPolicy : GoString)

/-- A group of the configuration, with its policies. -/
inductive PolicyGroup where
  | mk (policies : List (GoString × ProposedPolicy)) (groups : List (GoString × PolicyGroup))

section Commit

variable (absolute : GoString → CommittedPolicy)

/-- `GetPolicy`. An absolute path is asked of the root, with its old configuration during a commit.
-/
def getPolicy (policies : List (GoString × CommittedPolicy)) (id : GoString) : CommittedPolicy :=
  if id = [] then .reject id
  else if id.head? = some 0x2F then absolute id
  else (policies.lookup id).getD (.reject id)

/-- `initialize`, over the policies of the managers of the sub-groups. -/
def ProposedPolicy.initialized (managers : List (List (GoString × CommittedPolicy))) :
    ProposedPolicy → CommittedPolicy
  | .provided evaluate => .provided evaluate
  | .implicitMeta rule subPolicy =>
    let subPolicies := managers.map (getPolicy absolute · subPolicy)
    .implicitMeta (rule.threshold subPolicies.length) subPolicies

mutual

/-- The policies after `CommitProposals`: those of the group, and of the sub-groups by relative
names. -/
def PolicyGroup.commit : PolicyGroup → List (GoString × CommittedPolicy)
  | .mk policies groups =>
    let managers := commitGroups groups
    ((groups.map Prod.fst).zip managers).flatMap (fun m =>
        m.2.map fun p => (m.1 ++ str "/" ++ p.1, getPolicy absolute m.2 p.1)) ++
      policies.map fun p => (p.1, p.2.initialized absolute managers)

def commitGroups : List (GoString × PolicyGroup) → List (List (GoString × CommittedPolicy))
  | [] => []
  | (_, group) :: groups => group.commit :: commitGroups groups

end

end Commit

open CommittedPolicy

def accepting (policies : List CommittedPolicy) (set : List SignedData) : Nat :=
  policies.countP fun p => decide (p.Accepts set)

/-- The policy counts the sub-groups as its rule says. -/
structure CountsSubGroups (policy : CommittedPolicy) (rule : Rule)
    (subs : List CommittedPolicy) : Prop where
  named : ∀ t, (rule = 0 ∧ t = min 1 subs.length ∨ rule = 1 ∧ t = subs.length ∨
      rule = 2 ∧ t = if subs.length = 0 then 0 else subs.length / 2 + 1) →
    ∀ set, policy.Accepts set ↔ t ≤ accepting subs set
  unknown : ¬ rule.Named → 0 < subs.length → ∀ set, accepting subs set = 0 → ¬ policy.Accepts set
  monotone : ∀ set set', (∀ p ∈ subs, p.Accepts set → p.Accepts set') →
    policy.Accepts set → policy.Accepts set'

/-- A threshold of zero is met only as long as nobody accepts. -/
theorem evaluateLoop_eq_none (set : List SignedData) (subs : List CommittedPolicy) (n : Int) :
    evaluateLoop set subs n = none ↔
      n = 0 ∧ accepting subs set = 0 ∨ 0 < n ∧ n ≤ accepting subs set := by
  induction subs generalizing n with
  | nil => simp [evaluateLoop, accepting]
  | cons p subs ih =>
    rw [evaluateLoop]
    by_cases hp : p.Accepts set
    · have hcount : accepting (p :: subs) set = accepting subs set + 1 :=
        countP_cons_of_pos (by simpa using hp)
      rw [if_pos hp, hcount]
      split
      · simp only [true_iff]
        omega
      · rw [ih]
        omega
    · have hcount : accepting (p :: subs) set = accepting subs set :=
        countP_cons_of_neg (by simpa using hp)
      rw [if_neg hp, hcount, ih]

variable {rule : Rule} {subs : List CommittedPolicy} {set : List SignedData}

theorem accepts_implicitMeta {threshold : Nat} :
    (implicitMeta threshold subs).Accepts set ↔
      threshold = 0 ∧ accepting subs set = 0 ∨ 0 < threshold ∧ threshold ≤ accepting subs set := by
  rw [Accepts, CommittedPolicy.evaluate, Option.map_eq_none_iff, evaluateLoop_eq_none]
  norm_cast

theorem Rule.Named.accepts_iff (h : rule.Named) :
    (implicitMeta (rule.threshold subs.length) subs).Accepts set ↔
      rule.threshold subs.length ≤ accepting subs set := by
  have hle : accepting subs set ≤ subs.length := countP_le_length
  have hzero : rule.threshold subs.length = 0 → subs.length = 0 := by
    rcases h with rfl | rfl | rfl <;> simp [threshold]
  rw [accepts_implicitMeta]
  omega

theorem Rule.Named.counts (h : rule.Named) :
    CountsSubGroups (implicitMeta (rule.threshold subs.length) subs) rule subs := by
  refine ⟨?_, fun hn => absurd h hn, ?_⟩
  · intro t ht set
    have heq : rule.threshold subs.length = t := by
      rcases ht with ⟨rfl, rfl⟩ | ⟨rfl, rfl⟩ | ⟨rfl, rfl⟩ <;>
        by_cases hn : subs.length = 0 <;> simp [threshold, hn]
      omega
    rw [h.accepts_iff, heq]
  · intro set set' hsub hset
    rw [h.accepts_iff] at hset ⊢
    exact hset.trans (countP_mono_left (by simpa using hsub))

theorem accepting_eq_zero : accepting subs set = 0 ↔ ∀ p ∈ subs, ¬ p.Accepts set := by
  rw [accepting, countP_eq_zero]
  simp only [decide_eq_true_eq]

/-- With a rule that has no name, the policy accepts what none of the sub-groups does. -/
theorem unnamed_counts_iff (h : ¬ rule.Named) :
    CountsSubGroups (implicitMeta (rule.threshold subs.length) subs) rule subs ↔
      subs = [] ∨ ∀ set, ∃ p ∈ subs, p.Accepts set := by
  have hzero : rule.threshold subs.length = 0 := by
    simp [Rule.threshold, not_or.mp h, not_or.mp (not_or.mp h).2]
  have haccepts : ∀ set, (implicitMeta (rule.threshold subs.length) subs).Accepts set ↔
      ∀ p ∈ subs, ¬ p.Accepts set := by
    intro set
    rw [accepts_implicitMeta, hzero, ← accepting_eq_zero]
    omega
  constructor
  · intro hcounts
    by_contra hcond
    simp only [not_or, not_forall, not_exists, not_and] at hcond
    obtain ⟨hne, set, hnone⟩ := hcond
    exact hcounts.unknown h (length_pos_iff.mpr hne) set (accepting_eq_zero.mpr hnone)
      ((haccepts set).mpr hnone)
  · intro hcond
    have hnil : ∀ set, (∀ p ∈ subs, ¬ p.Accepts set) → subs = [] := by
      intro set hnone
      refine hcond.resolve_right fun hall => ?_
      obtain ⟨p, hp, haccept⟩ := hall set
      exact hnone p hp haccept
    refine ⟨?_, ?_, ?_⟩
    · rintro t (⟨hr, -⟩ | ⟨hr, -⟩ | ⟨hr, -⟩)
      · exact absurd (.inl hr) h
      · exact absurd (.inr (.inl hr)) h
      · exact absurd (.inr (.inr hr)) h
    · intro _ hpos set hset
      rw [hnil set (accepting_eq_zero.mp hset)] at hpos
      cases hpos
    · intro set set' _ hset
      rw [haccepts] at hset ⊢
      simp [hnil set hset]

/-- An implicit meta policy counts its sub-groups exactly if its rule has a name, or there are
no sub-groups, or every signature set is accepted by one of them. -/
theorem countsSubGroups_iff (absolute : GoString → CommittedPolicy)
    (groups : List (GoString × PolicyGroup)) (rule : Rule) (subPolicy : GoString) :
    let managers := commitGroups absolute groups
    let subs := managers.map (getPolicy absolute · subPolicy)
    CountsSubGroups ((ProposedPolicy.implicitMeta rule subPolicy).initialized absolute managers)
        rule subs ↔
      rule.Named ∨ groups = [] ∨ ∀ set, ∃ p ∈ subs, p.Accepts set := by
  intro managers subs
  have hnil : subs = [] ↔ groups = [] := by
    cases groups <;> simp [subs, managers, commitGroups]
  by_cases h : rule.Named
  · exact iff_of_true h.counts (.inl h)
  · rw [← hnil, or_iff_right h]
    exact unnamed_counts_iff h

/-- A rule with the number 3 and an organisation without the sub-policy. -/
theorem unknown_rule_accepts :
    let groups := [(str "Org1", PolicyGroup.mk [] [])]
    let managers := commitGroups .reject groups
    let policy := (ProposedPolicy.implicitMeta 3 (str "Admins")).initialized .reject managers
    policy.Accepts [] ∧ accepting (managers.map (getPolicy .reject · (str "Admins"))) [] = 0 ∧
      ¬ CountsSubGroups policy 3 (managers.map (getPolicy .reject · (str "Admins"))) := by
  intro groups managers policy
  have haccepts : policy.Accepts [] := by decide
  refine ⟨haccepts, by decide, fun h => ?_⟩
  exact h.unknown (by unfold Rule.Named; decide) (by decide) [] (by decide) haccepts

end FabricOev.Policy
