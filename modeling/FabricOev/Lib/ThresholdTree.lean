import Mathlib.Data.List.Basic
import Mathlib.Data.List.Nodup
import Mathlib.Data.List.Forall2
import Mathlib.Logic.Function.Basic

/-!
# Trees of threshold gates over a supply that is used up

A leaf takes one unit of a state; a gate evaluates all its rules from left to right, keeps
what the successful ones took, undoes the failed ones, and succeeds when the number of
successes reaches its threshold. `Meets` is the declarative reading: some choice of
successful leaves, each with a unit that suits it, meets every gate.
-/

namespace FabricOev.Lib

open List Option Nat Function

inductive ThresholdTree (ι : Type) where
  | leaf (i : ι)
  | gate (n : Int) (rules : List (ThresholdTree ι))

namespace ThresholdTree

variable {ι σ τ α : Type}

mutual

def leaves : ThresholdTree ι → List ι
  | leaf i => [i]
  | gate _ rules => leavesRules rules

def leavesRules : List (ThresholdTree ι) → List ι
  | [] => []
  | r :: rules => leaves r ++ leavesRules rules

end

theorem leavesRules_leaves (ks : List ι) : leavesRules (ks.map leaf) = ks := by
  induction ks with
  | nil => rfl
  | cons i ks ih => exact congrArg (i :: ·) ih

theorem mem_leavesRules {rules : List (ThresholdTree ι)} {j : ι} :
    j ∈ leavesRules rules ↔ ∃ r ∈ rules, j ∈ r.leaves := by
  induction rules with
  | nil => simp [leavesRules]
  | cons r rules ih => simp [leavesRules, ih]

mutual

/-- What is left of the state when the tree succeeds. -/
def eval (take : ι → σ → Option σ) : ThresholdTree ι → σ → Option σ
  | leaf i, s => take i s
  | gate n rules, s =>
    let r := evalRules take rules s
    if n ≤ r.1 then some r.2 else none

/-- The number of rules that succeed, and what they leave. -/
def evalRules (take : ι → σ → Option σ) : List (ThresholdTree ι) → σ → Nat × σ
  | [], s => (0, s)
  | r :: rules, s =>
    match eval take r s with
    | some s' => ((evalRules take rules s').1 + 1, (evalRules take rules s').2)
    | none => evalRules take rules s

end

section Rules

variable {take : ι → σ → Option σ} {r : ThresholdTree ι} {rules : List (ThresholdTree ι)}
  {s s' : σ}

theorem evalRules_some (h : eval take r s = some s') :
    evalRules take (r :: rules) s =
      ((evalRules take rules s').1 + 1, (evalRules take rules s').2) := by
  rw [evalRules, h]

theorem evalRules_none (h : eval take r s = none) :
    evalRules take (r :: rules) s = evalRules take rules s := by
  rw [evalRules, h]

theorem eval_gate_eq_some {n : Int} :
    eval take (gate n rules) s = some s' ↔
      n ≤ (evalRules take rules s).1 ∧ (evalRules take rules s).2 = s' := by
  rw [eval]
  split
  case isTrue h => simp [h]
  case isFalse h => simp [h]

variable (take rules s) in
theorem evalRules_le_length : (evalRules take rules s).1 ≤ rules.length := by
  induction rules generalizing s with
  | nil => exact Nat.le_refl 0
  | cons r rules ih =>
    cases h : eval take r s with
    | some s' =>
      rw [evalRules_some h]
      exact succ_le_succ (ih s')
    | none =>
      rw [evalRules_none h]
      exact le_succ_of_le (ih s)

end Rules

section Simulation

variable {take : ι → σ → Option σ} {take' : ι → τ → Option τ} {R : σ → τ → Prop}

mutual

/-- Two supplies whose leaves answer alike give the same verdicts, rule by rule. -/
theorem eval_rel (t : ThresholdTree ι)
    (h : ∀ i ∈ t.leaves, ∀ {s s'}, R s s' → Option.Rel R (take i s) (take' i s')) {s : σ} {s' : τ}
    (hs : R s s') : Option.Rel R (eval take t s) (eval take' t s') := by
  match t with
  | leaf i => exact h i (mem_singleton_self i) hs
  | gate n rules =>
    obtain ⟨hk, hR⟩ := evalRules_rel rules h hs
    rw [eval, eval, hk]
    split
    · exact .some hR
    · exact .none

theorem evalRules_rel (rules : List (ThresholdTree ι))
    (h : ∀ i ∈ leavesRules rules, ∀ {s s'}, R s s' → Option.Rel R (take i s) (take' i s'))
    {s : σ} {s' : τ} (hs : R s s') :
    (evalRules take rules s).1 = (evalRules take' rules s').1 ∧
      R (evalRules take rules s).2 (evalRules take' rules s').2 := by
  match rules with
  | [] => exact ⟨rfl, hs⟩
  | r :: rules =>
    have hrel := eval_rel r (fun i hi => h i (mem_append_left _ hi)) hs
    have hrest : ∀ i ∈ leavesRules rules, ∀ {s s'}, R s s' →
        Option.Rel R (take i s) (take' i s') := fun i hi => h i (mem_append_right _ hi)
    generalize he : eval take r s = o at hrel
    generalize he' : eval take' r s' = o' at hrel
    cases hrel with
    | some hss =>
      obtain ⟨hk, hR⟩ := evalRules_rel rules hrest hss
      rw [evalRules_some he, evalRules_some he']
      exact ⟨congrArg (· + 1) hk, hR⟩
    | none =>
      rw [evalRules_none he, evalRules_none he']
      exact evalRules_rel rules hrest hs

end

end Simulation

section Counted

variable [DecidableEq ι] {i : ι} {c : ι → Nat} {ks : List ι} {d : ι → Nat}

def consume (i : ι) (c : ι → Nat) : Option (ι → Nat) :=
  if 0 < c i then some (update c i (c i - 1)) else none

def LeOn (ks : List ι) (c d : ι → Nat) : Prop := ∀ j ∈ ks, c j ≤ d j

theorem consume_eq_some {c' : ι → Nat} (h : consume i c = some c') :
    0 < c i ∧ c' = update c i (c i - 1) := by
  unfold consume at h
  split at h
  case isTrue hpos => exact ⟨hpos, (some.inj h).symm⟩
  case isFalse => cases h

theorem consume_of_pos (h : 0 < c i) :
    consume i c = some (update c i (c i - 1)) := if_pos h

theorem consume_of_eq_zero (h : c i = 0) : consume i c = none := if_neg (by omega)

theorem LeOn.update (h : LeOn ks c d) (i : ι) :
    LeOn ks (update c i (c i - 1)) (update d i (d i - 1)) := by
  intro j hj
  have hle := h j hj
  by_cases hji : j = i
  · subst hji
    rw [update_self, update_self]
    omega
  · rwa [update_of_ne hji, update_of_ne hji]

/-- A unit that only the larger supply has may be taken from it. -/
theorem LeOn.update_right (h : LeOn ks c d) (hc : c i = 0) :
    LeOn ks c (Function.update d i (d i - 1)) := by
  intro j hj
  by_cases hji : j = i
  · subst hji
    rw [hc]
    exact zero_le _
  · rw [update_of_ne hji]
    exact h j hj

/-- When such a tree succeeds on a supply, it takes no more from a larger one. -/
inductive Settled : ThresholdTree ι → Prop where
  | leaf (i : ι) : Settled (leaf i)
  | flat (n : Int) (ks : List ι) : Settled (gate n (ks.map .leaf))
  | all (n : Int) (rules : List (ThresholdTree ι)) (hn : rules.length ≤ n)
      (h : ∀ r ∈ rules, Settled r) : Settled (gate n rules)

/-- Settled trees, and gates whose rules share no kind of unit. -/
inductive Tolerant : ThresholdTree ι → Prop where
  | settled {t : ThresholdTree ι} (h : Settled t) : Tolerant t
  | apart (n : Int) (rules : List (ThresholdTree ι)) (h : ∀ r ∈ rules, Tolerant r)
      (hd : rules.Pairwise fun r s => List.Disjoint r.leaves s.leaves) : Tolerant (gate n rules)

theorem evalRules_leaves (is : List ι) (hsub : is ⊆ ks) (h : LeOn ks c d) :
    (evalRules consume (is.map .leaf) c).1 ≤ (evalRules consume (is.map .leaf) d).1 ∧
      LeOn ks (evalRules consume (is.map .leaf) c).2 (evalRules consume (is.map .leaf) d).2 := by
  induction is generalizing c d with
  | nil => exact ⟨Nat.le_refl _, h⟩
  | cons i is ih =>
    have hi : c i ≤ d i := h i (hsub mem_cons_self)
    have hsub' : is ⊆ ks := fun j hj => hsub (mem_cons_of_mem i hj)
    rw [map_cons]
    by_cases hc : c i = 0
    · rw [evalRules_none (show eval consume (leaf i) c = none from consume_of_eq_zero hc)]
      by_cases hd : d i = 0
      · rw [evalRules_none (show eval consume (leaf i) d = none from consume_of_eq_zero hd)]
        exact ih hsub' h
      · rw [evalRules_some (show eval consume (leaf i) d = some _ from
          consume_of_pos (Nat.pos_of_ne_zero hd))]
        obtain ⟨hk, hle⟩ := ih hsub' (h.update_right hc)
        exact ⟨le_succ_of_le hk, hle⟩
    · have hcp : 0 < c i := Nat.pos_of_ne_zero hc
      rw [evalRules_some (show eval consume (leaf i) c = some _ from consume_of_pos hcp),
        evalRules_some (show eval consume (leaf i) d = some _ from consume_of_pos (by omega))]
      obtain ⟨hk, hle⟩ := ih hsub' (h.update i)
      exact ⟨succ_le_succ hk, hle⟩

mutual

theorem Settled.eval {ks : List ι} {c d c' : ι → Nat} (hle : LeOn ks c d) (t : ThresholdTree ι)
    (ht : Settled t) (hks : t.leaves ⊆ ks) (h : eval consume t c = some c') :
    ∃ d', ThresholdTree.eval consume t d = some d' ∧ LeOn ks c' d' := by
  match t with
  | .leaf i =>
    obtain ⟨hpos, rfl⟩ := consume_eq_some h
    have hi : c i ≤ d i := hle i (hks (mem_singleton_self i))
    exact ⟨_, consume_of_pos (by omega), hle.update i⟩
  | .gate n rules =>
    obtain ⟨hn, rfl⟩ := eval_gate_eq_some.mp h
    cases ht with
    | flat _ is =>
      obtain ⟨hk, hle'⟩ := evalRules_leaves is (leavesRules_leaves is ▸ hks) hle
      exact ⟨_, eval_gate_eq_some.mpr ⟨by omega, rfl⟩, hle'⟩
    | all _ _ hall hrules =>
      have hlen := evalRules_le_length consume rules c
      obtain ⟨hk, hle'⟩ := Settled.evalRules hle rules hrules hks (by omega)
      exact ⟨_, eval_gate_eq_some.mpr ⟨by omega, rfl⟩, hle'⟩

/-- Rules that all succeed on a supply all succeed on a larger one. -/
theorem Settled.evalRules {ks : List ι} {c d : ι → Nat} (hle : LeOn ks c d)
    (rules : List (ThresholdTree ι)) (hrules : ∀ r ∈ rules, Settled r)
    (hks : leavesRules rules ⊆ ks) (hall : (evalRules consume rules c).1 = rules.length) :
    (ThresholdTree.evalRules consume rules d).1 = rules.length ∧
      LeOn ks (ThresholdTree.evalRules consume rules c).2
        (ThresholdTree.evalRules consume rules d).2 := by
  match rules with
  | [] => exact ⟨rfl, hle⟩
  | r :: rules =>
    cases hrc : ThresholdTree.eval consume r c with
    | none =>
      have hlen := evalRules_le_length consume rules c
      rw [evalRules_none hrc, length_cons] at hall
      omega
    | some c' =>
      obtain ⟨hr, hrest⟩ := forall_mem_cons.mp hrules
      obtain ⟨hkr, hkrest⟩ := append_subset.mp hks
      obtain ⟨d', hrd, hle'⟩ := Settled.eval hle r hr hkr hrc
      rw [evalRules_some hrc] at hall
      rw [evalRules_some hrc, evalRules_some hrd]
      obtain ⟨hk, hle''⟩ := Settled.evalRules hle' rules hrest hkrest (succ.inj hall)
      exact ⟨congrArg (· + 1) hk, hle''⟩

end

mutual

/-- A tree takes units of its own kinds only. -/
theorem eval_frame {c c' : ι → Nat} (t : ThresholdTree ι) (h : eval consume t c = some c') {j : ι}
    (hj : j ∉ t.leaves) : c' j = c j := by
  match t with
  | leaf i =>
    obtain ⟨-, rfl⟩ := consume_eq_some h
    have hji : j ≠ i := fun hji => hj (by rw [hji]; exact mem_singleton_self i)
    exact update_of_ne hji ..
  | gate n rules =>
    obtain ⟨-, rfl⟩ := eval_gate_eq_some.mp h
    exact evalRules_frame rules hj

theorem evalRules_frame {c : ι → Nat} (rules : List (ThresholdTree ι)) {j : ι}
    (hj : j ∉ leavesRules rules) : (evalRules consume rules c).2 j = c j := by
  match rules with
  | [] => rfl
  | r :: rules =>
    obtain ⟨hjr, hjrest⟩ := mem_append.not.trans not_or |>.mp hj
    cases hrc : eval consume r c with
    | none =>
      rw [evalRules_none hrc]
      exact evalRules_frame rules hjrest
    | some c' =>
      rw [evalRules_some hrc]
      exact (evalRules_frame rules hjrest).trans (eval_frame r hrc hjr)

end

mutual

/-- A tolerant tree that succeeds on a supply succeeds on every larger one. -/
theorem Tolerant.eval {c d : ι → Nat} (t : ThresholdTree ι) (ht : Tolerant t)
    (hle : LeOn t.leaves c d) (hc : (eval consume t c).isSome) :
    (ThresholdTree.eval consume t d).isSome := by
  obtain ⟨c', hc⟩ := isSome_iff_exists.mp hc
  cases ht with
  | settled ht =>
    obtain ⟨d', hd, -⟩ := ht.eval hle t (List.Subset.refl _) hc
    rw [hd]
    rfl
  | apart n rules hrules hd =>
    obtain ⟨hn, -⟩ := eval_gate_eq_some.mp hc
    have hk := Tolerant.evalRules rules hrules hd hle
    rw [eval_gate_eq_some.mpr ⟨by omega, rfl⟩]
    rfl

theorem Tolerant.evalRules {c d : ι → Nat} (rules : List (ThresholdTree ι))
    (hrules : ∀ r ∈ rules, Tolerant r)
    (hd : rules.Pairwise fun r s => List.Disjoint r.leaves s.leaves)
    (hle : LeOn (leavesRules rules) c d) :
    (evalRules consume rules c).1 ≤ (ThresholdTree.evalRules consume rules d).1 := by
  match rules with
  | [] => exact Nat.le_refl 0
  | r :: rules =>
    obtain ⟨hr, hrest⟩ := forall_mem_cons.mp hrules
    obtain ⟨hdr, hdrest⟩ := pairwise_cons.mp hd
    have hler : LeOn r.leaves c d := fun j hj => hle j (mem_append_left _ hj)
    have hlerest : LeOn (leavesRules rules) c d := fun j hj => hle j (mem_append_right _ hj)
    -- what `r` takes is not looked at by the rules behind it
    have hframe : ∀ {c c' : ι → Nat}, ThresholdTree.eval consume r c = some c' →
        ∀ j ∈ leavesRules rules, c' j = c j := by
      intro c c' h j hj
      obtain ⟨q, hq, hjq⟩ := mem_leavesRules.mp hj
      exact eval_frame r h fun hjr => hdr q hq hjr hjq
    have hsome := Tolerant.eval r hr hler
    cases hrc : ThresholdTree.eval consume r c with
    | none =>
      rw [evalRules_none hrc]
      cases hrd : ThresholdTree.eval consume r d with
      | none =>
        rw [evalRules_none hrd]
        exact Tolerant.evalRules rules hrest hdrest hlerest
      | some d' =>
        rw [evalRules_some hrd]
        refine le_succ_of_le (Tolerant.evalRules rules hrest hdrest fun j hj => ?_)
        rw [hframe hrd j hj]
        exact hlerest j hj
    | some c' =>
      rw [hrc] at hsome
      obtain ⟨d', hrd⟩ := isSome_iff_exists.mp (hsome rfl)
      rw [evalRules_some hrc, evalRules_some hrd]
      refine succ_le_succ (Tolerant.evalRules rules hrest hdrest fun j hj => ?_)
      rw [hframe hrc j hj, hframe hrd j hj]
      exact hlerest j hj

end

end Counted

/-! ## Meeting a tree -/

mutual

/-- The units `as`, one for each leaf that is counted, meet the tree. -/
inductive Meets (ok : ι → α → Prop) : ThresholdTree ι → List α → Prop where
  | leaf {i : ι} {a : α} (h : ok i a) : Meets ok (leaf i) [a]
  | gate {n : Int} {rules : List (ThresholdTree ι)} {k : Nat} {as : List α}
      (h : MeetsRules ok rules k as) (hn : n ≤ k) : Meets ok (gate n rules) as

/-- `k` of the rules are met by the units `as`. -/
inductive MeetsRules (ok : ι → α → Prop) : List (ThresholdTree ι) → Nat → List α → Prop where
  | nil : MeetsRules ok [] 0 []
  | skip {r : ThresholdTree ι} {rules : List (ThresholdTree ι)} {k : Nat} {as : List α}
      (h : MeetsRules ok rules k as) : MeetsRules ok (r :: rules) k as
  | use {r : ThresholdTree ι} {rules : List (ThresholdTree ι)} {k : Nat} {as bs : List α}
      (hr : Meets ok r as) (h : MeetsRules ok rules k bs) :
      MeetsRules ok (r :: rules) (k + 1) (as ++ bs)

end

section Meeting

variable {ok : ι → α → Prop} {t : ThresholdTree ι} {as : List α}

mutual

theorem Meets.lift {β : Type} {ok' : ι → β → Prop} {R : α → β → Prop}
    (hR : ∀ i a, ok i a → ∃ b, ok' i b ∧ R a b) {t : ThresholdTree ι} {as : List α}
    (h : Meets ok t as) : ∃ bs, Meets ok' t bs ∧ List.Forall₂ R as bs := by
  match h with
  | .leaf h =>
    obtain ⟨b, hb, hab⟩ := hR _ _ h
    exact ⟨[b], .leaf hb, .cons hab .nil⟩
  | .gate h hn =>
    obtain ⟨bs, hbs, hrel⟩ := MeetsRules.lift hR h
    exact ⟨bs, .gate hbs hn, hrel⟩

theorem MeetsRules.lift {β : Type} {ok' : ι → β → Prop} {R : α → β → Prop}
    (hR : ∀ i a, ok i a → ∃ b, ok' i b ∧ R a b) {rules : List (ThresholdTree ι)} {k : Nat}
    {as : List α} (h : MeetsRules ok rules k as) :
    ∃ bs, MeetsRules ok' rules k bs ∧ List.Forall₂ R as bs := by
  match h with
  | .nil => exact ⟨[], .nil, .nil⟩
  | .skip h =>
    obtain ⟨bs, hbs, hrel⟩ := MeetsRules.lift hR h
    exact ⟨bs, .skip hbs, hrel⟩
  | .use hr h =>
    obtain ⟨bs, hbs, hrel⟩ := Meets.lift hR hr
    obtain ⟨bs', hbs', hrel'⟩ := MeetsRules.lift hR h
    exact ⟨bs ++ bs', .use hbs hbs', rel_append hrel hrel'⟩

end

mutual

theorem Meets.pairs {t : ThresholdTree ι} {as : List α} (h : Meets ok t as) :
    ∃ ps : List (ι × α), (ps.map (·.1)).Sublist t.leaves ∧ ps.map (·.2) = as ∧
      ∀ p ∈ ps, ok p.1 p.2 := by
  match h with
  | .leaf h => exact ⟨[(_, _)], List.Sublist.refl _, rfl, by simpa using h⟩
  | .gate h _ => exact MeetsRules.pairs h

theorem MeetsRules.pairs {rules : List (ThresholdTree ι)} {k : Nat} {as : List α}
    (h : MeetsRules ok rules k as) :
    ∃ ps : List (ι × α), (ps.map (·.1)).Sublist (leavesRules rules) ∧ ps.map (·.2) = as ∧
      ∀ p ∈ ps, ok p.1 p.2 := by
  match h with
  | .nil => exact ⟨[], List.Sublist.refl _, rfl, by simp⟩
  | .skip h =>
    obtain ⟨ps, hsub, has, hok⟩ := MeetsRules.pairs h
    exact ⟨ps, hsub.trans (sublist_append_right ..), has, hok⟩
  | .use hr h =>
    obtain ⟨ps, hsub, rfl, hok⟩ := Meets.pairs hr
    obtain ⟨qs, hsub', rfl, hok'⟩ := MeetsRules.pairs h
    refine ⟨ps ++ qs, ?_, map_append .., forall_mem_append.mpr ⟨hok, hok'⟩⟩
    rw [map_append]
    exact hsub.append hsub'

end

/-- Where no unit suits two leaves, no unit is counted twice. -/
theorem Meets.nodup (h : Meets ok t as)
    (hapart : t.leaves.Pairwise fun i j => ∀ a, ok i a → ¬ ok j a) : as.Nodup := by
  obtain ⟨ps, hsub, rfl, hok⟩ := h.pairs
  have hpair := pairwise_map.mp (hapart.sublist hsub)
  refine pairwise_map.mpr (hpair.imp_of_mem fun {p q} hp hq hpq heq => ?_)
  exact hpq p.2 (hok p hp) (heq ▸ hok q hq)

/-- What a leaf takes on success: a unit that suits it and was free. `inv` is what states
have in common. -/
structure Takes (take : ι → σ → Option σ) (ok : ι → α → Prop) (used : σ → α → Prop)
    (inv : σ → Prop) : Prop where
  keeps : ∀ {i s s'}, inv s → take i s = some s' → inv s'
  unit : ∀ {i s s'}, inv s → take i s = some s' → ∃ a, ok i a ∧ ¬ used s a ∧
    ∀ b, used s' b ↔ b = a ∨ used s b

variable {take : ι → σ → Option σ} {used : σ → α → Prop} {inv : σ → Prop}

mutual

/-- A tree that succeeds is met by units that were free before, none of them twice. -/
theorem eval_meets {s s' : σ} (h : Takes take ok used inv) (t : ThresholdTree ι) (hs : inv s)
    (he : eval take t s = some s') :
    inv s' ∧ ∃ as, Meets ok t as ∧ as.Nodup ∧ (∀ a ∈ as, ¬ used s a) ∧
      ∀ b, used s' b ↔ b ∈ as ∨ used s b := by
  match t with
  | leaf i =>
    obtain ⟨a, hok, hfree, hused⟩ := h.unit hs he
    exact ⟨h.keeps hs he, [a], .leaf hok, by simp, by simpa using hfree, by simpa using hused⟩
  | gate n rules =>
    obtain ⟨hn, rfl⟩ := eval_gate_eq_some.mp he
    obtain ⟨hs', as, hm, has⟩ := evalRules_meets h rules hs
    exact ⟨hs', as, .gate hm hn, has⟩

theorem evalRules_meets {s : σ} (h : Takes take ok used inv) (rules : List (ThresholdTree ι))
    (hs : inv s) :
    inv (evalRules take rules s).2 ∧ ∃ as, MeetsRules ok rules (evalRules take rules s).1 as ∧
      as.Nodup ∧ (∀ a ∈ as, ¬ used s a) ∧
      ∀ b, used (evalRules take rules s).2 b ↔ b ∈ as ∨ used s b := by
  match rules with
  | [] => exact ⟨hs, [], .nil, .nil, by simp, by simp [evalRules]⟩
  | r :: rules =>
    cases he : eval take r s with
    | none =>
      rw [evalRules_none he]
      obtain ⟨hs', as, hm, has⟩ := evalRules_meets h rules hs
      exact ⟨hs', as, .skip hm, has⟩
    | some s1 =>
      rw [evalRules_some he]
      obtain ⟨hs1, as, hm, hnd, hfree, hused⟩ := eval_meets h r hs he
      obtain ⟨hs', bs, hm', hnd', hfree', hused'⟩ := evalRules_meets h rules hs1
      refine ⟨hs', as ++ bs, .use hm hm', hnd.append hnd' fun a ha hb => ?_, fun a ha => ?_,
        fun b => ?_⟩
      · exact hfree' a hb ((hused a).mpr (.inl ha))
      · obtain ha | ha := mem_append.mp ha
        · exact hfree a ha
        · exact fun hs => hfree' a ha ((hused a).mpr (.inr hs))
      · grind

end

/-- A leaf that some unit suits is served, and serving it or passing over it leaves enough for the
others. -/
structure Supplies (take : ι → σ → Option σ) (ok : ι → α → Prop) (P : List ι → σ → Prop) :
    Prop where
  pass : ∀ {i ks s}, P (i :: ks) s → P ks s
  after : ∀ {i ks s s'}, P (i :: ks) s → take i s = some s' → P ks s'
  serve : ∀ {i ks s a}, P (i :: ks) s → ok i a → (take i s).isSome

variable {P : List ι → σ → Prop} {s : σ}

theorem Supplies.passes (h : Supplies take ok P) {is ks : List ι} (hP : P (is ++ ks) s) :
    P ks s := by
  induction is with
  | nil => exact hP
  | cons i is ih => exact ih (h.pass hP)

mutual

theorem Supplies.eval (h : Supplies take ok P) {s s' : σ} {ks : List ι} (t : ThresholdTree ι)
    (hP : P (t.leaves ++ ks) s) (he : eval take t s = some s') : P ks s' := by
  match t with
  | .leaf i => exact h.after hP he
  | .gate n rules =>
    obtain ⟨-, rfl⟩ := eval_gate_eq_some.mp he
    exact Supplies.evalRules h rules hP

theorem Supplies.evalRules (h : Supplies take ok P) {s : σ} {ks : List ι}
    (rules : List (ThresholdTree ι)) (hP : P (leavesRules rules ++ ks) s) :
    P ks (evalRules take rules s).2 := by
  match rules with
  | [] => exact hP
  | r :: rules =>
    rw [leavesRules, append_assoc] at hP
    cases he : ThresholdTree.eval take r s with
    | none =>
      rw [evalRules_none he]
      exact Supplies.evalRules h rules (h.passes hP)
    | some s1 =>
      rw [evalRules_some he]
      exact Supplies.evalRules h rules (Supplies.eval h r hP he)

end

mutual

/-- A tree that can be met succeeds where the supply is enough for all its leaves. -/
theorem Supplies.succeeds (h : Supplies take ok P) {s : σ} {ks : List ι} {t : ThresholdTree ι}
    {as : List α} (hP : P (t.leaves ++ ks) s) (hm : Meets ok t as) :
    (ThresholdTree.eval take t s).isSome := by
  match hm with
  | .leaf hok => exact h.serve hP hok
  | .gate hm hn =>
    have hk := Supplies.counts h hP hm
    rw [eval_gate_eq_some.mpr ⟨by omega, rfl⟩]
    rfl

theorem Supplies.counts (h : Supplies take ok P) {s : σ} {ks : List ι}
    {rules : List (ThresholdTree ι)} {k : Nat} {as : List α} (hP : P (leavesRules rules ++ ks) s)
    (hm : MeetsRules ok rules k as) :
    k ≤ (ThresholdTree.evalRules take rules s).1 := by
  match hm with
  | .nil => exact zero_le _
  | .skip (r := r) hm =>
    rw [leavesRules, append_assoc] at hP
    cases he : ThresholdTree.eval take r s with
    | none =>
      rw [evalRules_none he]
      exact Supplies.counts h (h.passes hP) hm
    | some s1 =>
      rw [evalRules_some he]
      exact le_succ_of_le (Supplies.counts h (h.eval r hP he) hm)
  | .use (r := r) hr hm =>
    rw [leavesRules, append_assoc] at hP
    obtain ⟨s1, he⟩ := isSome_iff_exists.mp (Supplies.succeeds h hP hr)
    rw [evalRules_some he]
    exact succ_le_succ (Supplies.counts h (h.eval r hP he) hm)

end

theorem Supplies.succeeds_alone (h : Supplies take ok P) (hP : P t.leaves s) (hm : Meets ok t as) :
    (ThresholdTree.eval take t s).isSome := by
  rw [← append_nil t.leaves] at hP
  exact h.succeeds hP hm

end Meeting

end ThresholdTree

end FabricOev.Lib
