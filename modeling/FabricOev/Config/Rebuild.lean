import FabricOev.Config.Elements
import FabricOev.Config.Update

/-!
# Trees rebuilt from a map

`configMapToConfig` starts at the root and follows the keys of the groups. The tree it returns
has at each place the element of the map under the key of that place, and every key that a
group of it lists has its element. Go maps have no order: two groups are the same when they
have the same keys, in whatever order the lists here have them.
-/

namespace FabricOev.Config

open Go Lib Lib.FinMap List AssocList ConfigGroup Result

structure GroupNode.Same (n n' : GroupNode) : Prop where
  version : n.version = n'.version
  modPolicy : n.modPolicy = n'.modPolicy
  groups : n.groups.Perm n'.groups
  values : n.values.Perm n'.values
  policies : n.policies.Perm n'.policies

/-- The same contents, version and `mod_policy`; of a group, the same keys in its maps. -/
def Element.Same : Element → Element → Prop
  | .group n, .group n' => n.Same n'
  | e, e' => e = e'

theorem Element.Same.refl (e : Element) : e.Same e := by
  cases e with
  | group n => exact ⟨rfl, rfl, .rfl, .rfl, .rfl⟩
  | value v | policy p | unset => rfl

variable {e e' : Element} {n' : GroupNode} {groups : List (GoString × ConfigGroup)}
  {values : List (GoString × Option ConfigValue)}
  {policies : List (GoString × Option ConfigPolicy)} {version : UInt64} {modPolicy : GoString}
  {group g : ConfigGroup} {p : List GoString} {k : GoString} {α : Type} {q : List GoString}
  {item : Item} {c : α → Element} {f : GoString → Option Element} {l : List (GoString × Option α)}
  {m : ConfigMap} {bound : Nat} {R : ConfigGroup} {U : ConfigGroup}
  {l' : List (GoString × Option α)} {group' : ConfigGroup} {ks : List GoString}

variable (h : e.Same e')
include h

theorem Element.Same.cases : e = e' ∨ ∃ n n', e = .group n ∧ e' = .group n' ∧ n.Same n' := by
  cases e with
  | group n =>
    cases e' with
    | group n' => exact .inr ⟨n, n', rfl, rfl, h⟩
    | value v | policy p | unset => exact .inl h
  | value v | policy p | unset => exact .inl (by cases e' <;> exact h)

theorem Element.Same.symm : e'.Same e := by
  obtain rfl | ⟨n, n', rfl, rfl, h⟩ := h.cases
  · exact .refl e
  · exact ⟨h.version.symm, h.modPolicy.symm, h.groups.symm, h.values.symm, h.policies.symm⟩

theorem Element.Same.trans {e'' : Element} (h' : e'.Same e'') : e.Same e'' := by
  obtain rfl | ⟨n, n', rfl, rfl, h⟩ := h.cases
  · exact h'
  · obtain rfl | ⟨_, n'', heq, rfl, h'⟩ := h'.cases
    · exact h
    · cases heq
      exact ⟨h.version.trans h'.version, h.modPolicy.trans h'.modPolicy,
        h.groups.trans h'.groups, h.values.trans h'.values, h.policies.trans h'.policies⟩

theorem Element.Same.version_eq : e.version = e'.version := by
  obtain rfl | ⟨n, n', rfl, rfl, h⟩ := h.cases
  · rfl
  · exact h.version

omit h

/-- Two trees with the same elements at the same places. -/
def ConfigGroup.Same (group group' : ConfigGroup) : Prop :=
  ∀ p item, Option.Rel Element.Same (group.find p item) (group'.find p item)

/-! ## Places that a group lists -/

def GroupNode.keys (node : GroupNode) : Kind → List GoString
  | .group => node.groups
  | .value => node.values
  | .policy => node.policies

theorem GroupNode.Same.keys {n : GroupNode} (h : n.Same n') (kind : Kind) :
    (n.keys kind).Perm (n'.keys kind) := by
  cases kind with
  | group => exact h.groups
  | value => exact h.values
  | policy => exact h.policies

/-- The group and the key of it under which a place is listed; none for the root group. -/
def listing : List GoString → Item → Option (List GoString × Kind × GoString)
  | p, .self => p.getLast?.map fun key => (p.dropLast, .group, key)
  | p, .value key => some (p, .value, key)
  | p, .policy key => some (p, .policy, key)

def ConfigGroup.descend (group : ConfigGroup) : List GoString → Option ConfigGroup
  | [] => some group
  | key :: path => (group.sub key).bind fun g => g.descend path

variable (group p q item)

theorem ConfigGroup.find_append :
    group.find (p ++ q) item = (group.descend p).bind fun g => g.find q item := by
  induction p generalizing group with
  | nil => rfl
  | cons key p ih =>
    show (group.sub key).bind _ = ((group.sub key).bind _).bind _
    cases group.sub key with
    | none => rfl
    | some g => exact ih g

theorem ConfigGroup.find_eq : group.find p item = (group.descend p).bind fun g => g.here item := by
  have h := group.find_append p [] item
  rwa [append_nil] at h

variable {group p q item}

theorem fullGroups_iff : fullGroups groups = true ↔ ∀ e ∈ groups, e.2.full = true := by
  induction groups with
  | nil => simp [fullGroups]
  | cons e groups ih => rw [fullGroups, Bool.and_eq_true_iff, ih, forall_mem_cons]

theorem full_mk :
    (ConfigGroup.mk version modPolicy groups values policies).full = true ↔
      (∀ e ∈ groups, e.2.full = true) ∧ (∀ e ∈ values, e.2.isSome) ∧
        ∀ e ∈ policies, e.2.isSome := by
  rw [full, Bool.and_eq_true_iff, Bool.and_eq_true_iff, and_assoc, fullGroups_iff,
    all_eq_true, all_eq_true]

theorem full_of_sub {key : GoString} (h : group.full = true) (hsub : group.sub key = some g) :
    g.full = true := by
  cases group with
  | nil => cases hsub
  | mk version modPolicy groups values policies => exact (full_mk.mp h).1 _ (mem_of_lookup hsub)

theorem full_of_descend (h : group.full = true) (hp : group.descend p = some g) :
    g.full = true := by
  induction p generalizing group with
  | nil =>
    cases hp
    exact h
  | cons key p ih =>
    obtain ⟨sub, hsub, hp⟩ := Option.bind_eq_some_iff.mp hp
    exact ih (full_of_sub h hsub) hp

theorem find_self_isSome (h : group.full = true) : (group.find [] .self).isSome := by
  cases group with
  | nil => cases h
  | mk version modPolicy groups values policies => rfl

theorem lookup_join_isSome (h : ∀ e ∈ l, e.2.isSome) :
    (l.lookup k).join.isSome ↔ k ∈ l.map (·.1) := by
  rw [← lookup_isSome]
  cases hk : l.lookup k with
  | none => exact Iff.rfl
  | some a =>
    have ha := h _ (mem_of_lookup hk)
    exact ⟨fun _ => rfl, fun _ => ha⟩

theorem mem_values_iff (hfull : group.full = true) :
    k ∈ group.node.values ↔ (group.here (.value k)).isSome := by
  cases group with
  | nil => cases hfull
  | mk version modPolicy groups values policies =>
    show k ∈ values.map (·.1) ↔ ((values.lookup k).join.map Element.value).isSome
    rw [Option.isSome_map, lookup_join_isSome (full_mk.mp hfull).2.1]

theorem mem_policies_iff (hfull : group.full = true) :
    k ∈ group.node.policies ↔ (group.here (.policy k)).isSome := by
  cases group with
  | nil => cases hfull
  | mk version modPolicy groups values policies =>
    show k ∈ policies.map (·.1) ↔ ((policies.lookup k).join.map Element.policy).isSome
    rw [Option.isSome_map, lookup_join_isSome (full_mk.mp hfull).2.2]

theorem mem_groups_iff : k ∈ group.node.groups ↔ (group.sub k).isSome := by
  cases group with
  | nil => simp [node, sub]
  | mk version modPolicy groups values policies => exact lookup_isSome.symm

theorem find_listed (hfull : group.full = true) (q below : List GoString) (item : Item)
    (kind : Kind) (k : GoString) (hhere : ∀ g : ConfigGroup, g.full = true →
      ((g.find below item).isSome ↔ k ∈ g.node.keys kind)) :
    (group.find (q ++ below) item).isSome ↔
      ∃ node, group.find q .self = some (.group node) ∧ k ∈ node.keys kind := by
  rw [find_append, find_eq]
  cases hq : group.descend q with
  | none => simp
  | some g =>
    have hg := full_of_descend hfull hq
    cases g with
    | nil => cases hg
    | mk version modPolicy groups values policies =>
      constructor
      · intro hfound
        exact ⟨_, rfl, (hhere _ hg).mp hfound⟩
      · rintro ⟨node, hnode, hk⟩
        cases hnode
        exact (hhere _ hg).mpr hk

theorem find_isSome_listed (hfull : group.full = true) {kind : Kind}
    (hl : listing p item = some (q, kind, k)) :
    (group.find p item).isSome ↔
      ∃ node, group.find q .self = some (.group node) ∧ k ∈ node.keys kind := by
  cases item with
  | self =>
    obtain ⟨key, hkey, heq⟩ := Option.map_eq_some_iff.mp hl
    cases heq
    have hp : p = p.dropLast ++ [k] := (dropLast_append_getLast? k hkey).symm
    have hlisted := find_listed hfull p.dropLast [k] .self .group k ?_
    · rwa [← hp] at hlisted
    · intro g hg
      show ((g.sub k).bind fun g' => g'.find [] .self).isSome ↔ k ∈ g.node.groups
      rw [mem_groups_iff]
      cases hsub : g.sub k with
      | none => exact Iff.rfl
      | some g' => exact ⟨fun _ => rfl, fun _ => find_self_isSome (full_of_sub hg hsub)⟩
  | value key =>
    cases hl
    have hlisted := find_listed hfull p [] (.value k) .value k fun g hg => (mem_values_iff hg).symm
    rwa [append_nil] at hlisted
  | policy key =>
    cases hl
    have hlisted := find_listed hfull p [] (.policy k) .policy k
      fun g hg => (mem_policies_iff hg).symm
    rwa [append_nil] at hlisted

/-! ## What `recurseConfigMap` returns -/

theorem joined_concat (ps : List GoString) (k : GoString) :
    joined (ps ++ [k]) = joined ps ++ str "/" ++ k := by
  simp [joined]

variable (q)

theorem keyOf_self : keyOf q .self = str "[Groups] " ++ joined (rootGroupKey :: q) := by
  simp [keyOf, Item.kind, Kind.tag, Item.own]

theorem keyOf_value (k : GoString) :
    keyOf q (.value k) = str "[Values] " ++ joined (rootGroupKey :: q) ++ str "/" ++ k := by
  show Kind.value.tag ++ joined (rootGroupKey :: q ++ [k]) = _
  rw [joined_concat]
  simp [Kind.tag]

theorem keyOf_policy (k : GoString) :
    keyOf q (.policy k) = str "[Policy] " ++ joined (rootGroupKey :: q) ++ str "/" ++ k := by
  show Kind.policy.tag ++ joined (rootGroupKey :: q ++ [k]) = _
  rw [joined_concat]
  simp [Kind.tag]

variable {q}

def elementAt (m : ConfigMap) (q : List GoString) (item : Item) : Option Element :=
  (m[keyOf q item]?).map (·.element)

/-- The entries of a map of values or of policies are what `f` has for their keys. -/
def Agree (c : α → Element) (f : GoString → Option Element) (l : List (GoString × Option α)) :
    Prop :=
  ∀ e ∈ l, ∃ v, e.2 = some v ∧ f e.1 = some (c v)

theorem Agree.isSome (h : Agree c f l) : ∀ e ∈ l, e.2.isSome := by
  intro e he
  obtain ⟨v, hv, -⟩ := h e he
  rw [hv]
  rfl

theorem Agree.of_lookup (h : Agree c f l) (he : (l.lookup k).join.map c = some e) :
    f k = some e := by
  obtain ⟨v, hv, rfl⟩ := Option.map_eq_some_iff.mp he
  obtain ⟨v', hv', hfound⟩ := h _ (mem_of_lookup (Option.join_eq_some_iff.mp hv))
  cases hv'
  exact hfound

/-- The map is `f` when its keys are those where `f` has something. -/
theorem Agree.lookup_eq (h : Agree c f l) (hkeys : ∀ k, k ∈ l.map (·.1) ↔ (f k).isSome)
    (k : GoString) : (l.lookup k).join.map c = f k := by
  cases hk : (l.lookup k).join.map c with
  | some e => exact (h.of_lookup hk).symm
  | none =>
    have hnot := Option.not_isSome_iff_eq_none.mpr hk
    rw [Option.isSome_map, lookup_join_isSome h.isSome, hkeys] at hnot
    exact (Option.not_isSome_iff_eq_none.mp hnot).symm

theorem agree_of_mapM {read : GoString → Result (GoString × Option α)}
    (hread : ∀ k e, read k = .ok e → e.1 = k ∧ ∃ v, e.2 = some v ∧ f e.1 = some (c v))
    (h : ks.mapM read = .ok l) : l.map (·.1) = ks ∧ Agree c f l :=
  forall₂_keyed.mp ((mapM_eq_ok.mp h).imp hread)

theorem exists_agree {f' : GoString → Option Element}
    (h : ∀ k ∈ ks, ∃ v, f k = some (c v) ∧ f' k = some (c v)) :
    ∃ l : List (GoString × Option α), l.map (·.1) = ks ∧ Agree c f l ∧ Agree c f' l := by
  obtain ⟨l, hkeys, hl⟩ := exists_keyed
    (P := fun e => ∃ v, e.2 = some v ∧ f e.1 = some (c v) ∧ f' e.1 = some (c v)) fun k hk => by
      obtain ⟨v, hv⟩ := h k hk
      exact ⟨some v, v, rfl, hv⟩
  refine ⟨l, hkeys, fun e he => ?_, fun e he => ?_⟩
  · obtain ⟨v, hv, hf, -⟩ := hl e he
    exact ⟨v, hv, hf⟩
  · obtain ⟨v, hv, -, hf'⟩ := hl e he
    exact ⟨v, hv, hf'⟩

/-- The group's fields in the map, and for each of its keys the element of the map. -/
structure Rebuilt (m : ConfigMap) (bound : Nat) (q : List GoString) (node : GroupNode)
    (groups : List (GoString × ConfigGroup)) (values : List (GoString × Option ConfigValue))
    (policies : List (GoString × Option ConfigPolicy)) : Prop where
  own : elementAt m q .self = some (.group node)
  groupKeys : groups.map (·.1) = node.groups
  valueKeys : values.map (·.1) = node.values
  policyKeys : policies.map (·.1) = node.policies
  groups : ∀ e ∈ groups, recurseConfigMap m bound (joined (rootGroupKey :: (q ++ [e.1]))) = .ok e.2
  values : ∀ e ∈ values, ∃ v, e.2 = some v ∧ elementAt m q (.value e.1) = some (.value v)
  policies : ∀ e ∈ policies, ∃ v, e.2 = some v ∧ elementAt m q (.policy e.1) = some (.policy v)

theorem recurseMap_eq_ok
    (h : recurseConfigMap m (bound + 1) (joined (rootGroupKey :: q)) = .ok R) :
    ∃ node groups values policies, Rebuilt m bound q node groups values policies ∧
      R = .mk node.version node.modPolicy groups values policies := by
  rw [recurseConfigMap, ← keyOf_self] at h
  simp only [← keyOf_value, ← keyOf_policy] at h
  split at h
  · cases h
  · rename_i node hown
    obtain ⟨groups, hgroups, h⟩ := bind_ok.mp h
    obtain ⟨values, hvalues, h⟩ := bind_ok.mp h
    obtain ⟨policies, hpolicies, h⟩ := bind_ok.mp h
    cases h
    have hg : List.Forall₂ (fun k e => e.1 = k ∧
        recurseConfigMap m bound (joined (rootGroupKey :: (q ++ [e.1]))) = .ok e.2)
        node.groups groups := by
      refine (mapM_eq_ok.mp hgroups).imp fun k e he => ?_
      obtain ⟨rfl, he⟩ := bind_pair_eq_ok.mp he
      rw [← joined_concat] at he
      exact ⟨rfl, he⟩
    have hv := agree_of_mapM (c := Element.value) (f := fun k => elementAt m q (.value k)) ?_
      hvalues
    have hp := agree_of_mapM (c := Element.policy) (f := fun k => elementAt m q (.policy k)) ?_
      hpolicies
    any_goals
      intro k e he
      split at he
      · cases he
      · rename_i v hfound
        cases he
        exact ⟨rfl, v, rfl, hfound⟩
      · cases he
    obtain ⟨hgk, hg⟩ := forall₂_keyed.mp hg
    exact ⟨node, groups, values, policies, ⟨hown, hgk, hv.1, hp.1, hg, hv.2, hp.2⟩, rfl⟩
  · cases h

theorem Rebuilt.recurseConfigMap_eq {node : GroupNode}
    (h : Rebuilt m bound q node groups values policies) :
    recurseConfigMap m (bound + 1) (joined (rootGroupKey :: q)) =
      .ok (.mk node.version node.modPolicy groups values policies) := by
  rw [recurseConfigMap, ← keyOf_self]
  simp only [← keyOf_value, ← keyOf_policy]
  have hown : (m[keyOf q .self]?).map (·.element) = some (.group node) := h.own
  rw [hown]
  refine bind_ok.mpr ⟨groups, mapM_eq_ok.mpr ?_, ?_⟩
  · refine (forall₂_keyed.mpr ⟨h.groupKeys, h.groups⟩).imp fun k e he => ?_
    obtain ⟨rfl, he⟩ := he
    refine bind_pair_eq_ok.mpr ⟨rfl, ?_⟩
    rw [← joined_concat]
    exact he
  refine bind_ok.mpr ⟨values, mapM_eq_ok.mpr ?_, ?_⟩
  · refine (forall₂_keyed.mpr ⟨h.valueKeys, h.values⟩).imp ?_
    rintro _ ⟨k, _⟩ ⟨rfl, v, rfl, hv⟩
    have hfound : (m[keyOf q (.value k)]?).map (·.element) = some (.value v) := hv
    simp only [hfound]
  refine bind_ok.mpr ⟨policies, mapM_eq_ok.mpr ?_, rfl⟩
  · refine (forall₂_keyed.mpr ⟨h.policyKeys, h.policies⟩).imp ?_
    rintro _ ⟨k, _⟩ ⟨rfl, v, rfl, hv⟩
    have hfound : (m[keyOf q (.policy k)]?).map (·.element) = some (.policy v) := hv
    simp only [hfound]

theorem Rebuilt.agree {node : GroupNode} (h : Rebuilt m bound q node groups values policies) :
    Agree Element.value (fun k => elementAt m q (.value k)) values ∧
      Agree Element.policy (fun k => elementAt m q (.policy k)) policies :=
  ⟨h.values, h.policies⟩

theorem recurseMap_full (h : recurseConfigMap m bound (joined (rootGroupKey :: q)) = .ok R) :
    R.full = true := by
  induction bound generalizing q R with
  | zero => cases h
  | succ bound ih =>
    obtain ⟨node, groups, values, policies, hr, rfl⟩ := recurseMap_eq_ok h
    exact full_mk.mpr ⟨fun e he => ih (hr.groups e he), hr.agree.1.isSome, hr.agree.2.isSome⟩

/-- Every element of the rebuilt tree is the one of the map. -/
theorem recurseMap_find (h : recurseConfigMap m bound (joined (rootGroupKey :: q)) = .ok R)
    (hfind : R.find p item = some e) :
    elementAt m (q ++ p) item = some e := by
  induction bound generalizing q R p with
  | zero => cases h
  | succ bound ih =>
    obtain ⟨node, groups, values, policies, hr, rfl⟩ := recurseMap_eq_ok h
    cases p with
    | nil =>
      rw [append_nil]
      cases item with
      | self =>
        cases hfind
        rw [hr.own]
        simp [ConfigGroup.element, ConfigGroup.node, hr.groupKeys, hr.valueKeys, hr.policyKeys]
      | value k => exact hr.agree.1.of_lookup hfind
      | policy k => exact hr.agree.2.of_lookup hfind
    | cons k p =>
      obtain ⟨sub, hsub, hfind⟩ := Option.bind_eq_some_iff.mp hfind
      have hbelow := ih (hr.groups _ (mem_of_lookup hsub)) hfind
      rwa [append_assoc] at hbelow

structure GroupNode.Tidy (node : GroupNode) : Prop where
  valid : ∀ k ∈ node.members, validConfigID k = true
  groups : node.groups.Nodup
  values : node.values.Nodup
  policies : node.policies.Nodup

def Tidy (m : ConfigMap) : Prop :=
  ∀ (k : GoString) (c : Comparable) (node : GroupNode), m[k]? = some c →
    c.element = .group node → node.Tidy

theorem Tidy.elementAt (ht : Tidy m) {node : GroupNode}
    (h : elementAt m q item = some (.group node)) : node.Tidy := by
  obtain ⟨c, hc, helem⟩ := Option.map_eq_some_iff.mp h
  exact ht _ c node hc helem

theorem distinctGroups_iff : DistinctGroups groups ↔ ∀ e ∈ groups, e.2.Distinct := by
  induction groups with
  | nil => simp [DistinctGroups]
  | cons e groups ih => rw [DistinctGroups, ih, forall_mem_cons]

theorem distinct_of_descend (h : group.Distinct) (hp : group.descend p = some g) : g.Distinct := by
  induction p generalizing group with
  | nil =>
    cases hp
    exact h
  | cons key p ih =>
    obtain ⟨sub, hsub, hbelow⟩ := Option.bind_eq_some_iff.mp hp
    cases group with
    | nil => cases hsub
    | mk version modPolicy groups values policies =>
      exact ih (distinctGroups_iff.mp h.2.2.2 _ (mem_of_lookup hsub)) hbelow

theorem find_eq_group {node : GroupNode} (h : group.find p item = some (.group node)) :
    item = .self ∧ ∃ g, group.descend p = some g ∧ g.node = node ∧ g ≠ .nil := by
  rw [find_eq] at h
  obtain ⟨g, hg, h⟩ := Option.bind_eq_some_iff.mp h
  cases g with
  | nil => cases h
  | mk version modPolicy groups values policies =>
    cases item with
    | self =>
      cases h
      exact ⟨rfl, _, hg, rfl, by simp⟩
    | value k | policy k =>
      obtain ⟨v, -, hv⟩ := Option.map_eq_some_iff.mp h
      cases hv

theorem Mapped.tidy (hm : Mapped m group) (hd : group.Distinct) : Tidy m := by
  intro k c node hc helem
  obtain hunset | ⟨p, item, hfind, -⟩ := hm.only hc
  · have h : c.element = .unset := hunset.1
    rw [helem] at h
    cases h
  · rw [helem] at hfind
    obtain ⟨rfl, g, hg, rfl, hne⟩ := find_eq_group hfind
    have hdg := distinct_of_descend hd hg
    cases g with
    | nil => exact absurd rfl hne
    | mk version modPolicy groups values policies =>
      exact ⟨hm.members p _ hfind, hdg.1, hdg.2.1, hdg.2.2.1⟩

theorem recurseMap_distinct (ht : Tidy m)
    (h : recurseConfigMap m bound (joined (rootGroupKey :: q)) = .ok R) :
    R.Distinct := by
  induction bound generalizing q R with
  | zero => cases h
  | succ bound ih =>
    obtain ⟨node, groups, values, policies, hr, rfl⟩ := recurseMap_eq_ok h
    have hnode := ht.elementAt hr.own
    refine ⟨?_, ?_, ?_, distinctGroups_iff.mpr fun e he => ih (hr.groups e he)⟩
    · rw [hr.groupKeys]
      exact hnode.groups
    · rw [hr.valueKeys]
      exact hnode.values
    · rw [hr.policyKeys]
      exact hnode.policies

/-! ## Rebuilding a tree that the map has -/

/-- The map has the elements of the tree, whose root is the group at `q`. -/
def Represents (m : ConfigMap) (q : List GoString) (group : ConfigGroup) : Prop :=
  ∀ p item e, group.find p item = some e → ∃ e', elementAt m (q ++ p) item = some e' ∧ e'.Same e

theorem Represents.sub (h : Represents m q group) (hsub : group.sub k = some g) :
    Represents m (q ++ [k]) g := by
  intro p item e hfind
  obtain ⟨e', he', hsame⟩ := h (k :: p) item e (Option.bind_eq_some_iff.mpr ⟨g, hsub, hfind⟩)
  exact ⟨e', by rwa [append_assoc], hsame⟩

theorem recurseMap_represents
    (h : recurseConfigMap m bound (joined (rootGroupKey :: q)) = .ok R) :
    Represents m q R :=
  fun _ _ e hfind => ⟨e, recurseMap_find h hfind, .refl e⟩

theorem Element.Same.group_right (h : e.Same (.group n')) : ∃ n, e = .group n ∧ n.Same n' := by
  obtain rfl | ⟨n, _, rfl, heq, h⟩ := h.cases
  · exact ⟨n', rfl, Element.Same.refl (.group n')⟩
  · cases heq
    exact ⟨n, rfl, h⟩

structure IsLeaf (c : α → Element) : Prop where
  injective : c.Injective
  ne_group : ∀ v n, c v ≠ .group n

theorem isLeaf_value : IsLeaf Element.value := ⟨fun _ _ h => by cases h; rfl, nofun⟩

theorem isLeaf_policy : IsLeaf Element.policy := ⟨fun _ _ h => by cases h; rfl, nofun⟩

theorem IsLeaf.eq_of_same {v : α} (hc : IsLeaf c) (h : e.Same (c v)) : e = c v := by
  obtain h | ⟨n, n', -, heq, -⟩ := h.cases
  · exact h
  · exact absurd heq (hc.ne_group v n')

theorem here_value (h : group.here (.value k) = some e) : ∃ v, e = .value v := by
  cases group with
  | nil => cases h
  | mk version modPolicy groups values policies =>
    obtain ⟨v, -, rfl⟩ := Option.map_eq_some_iff.mp h
    exact ⟨v, rfl⟩

theorem here_policy (h : group.here (.policy k) = some e) : ∃ v, e = .policy v := by
  cases group with
  | nil => cases h
  | mk version modPolicy groups values policies =>
    obtain ⟨v, -, rfl⟩ := Option.map_eq_some_iff.mp h
    exact ⟨v, rfl⟩

theorem Represents.leaf (h : Represents m q group) (item : Item) (hc : IsLeaf c)
    (hhere : ∀ e, group.here item = some e → ∃ v, e = c v) (hk : (group.here item).isSome) :
    ∃ v, elementAt m q item = some (c v) ∧ group.here item = some (c v) := by
  obtain ⟨e, he⟩ := Option.isSome_iff_exists.mp hk
  obtain ⟨e', he', hsame⟩ := h [] item e he
  obtain ⟨v, rfl⟩ := hhere e he
  rw [append_nil, hc.eq_of_same hsame] at he'
  exact ⟨v, he', he⟩

theorem rel_refl (o : Option Element) : Option.Rel Element.Same o o := by
  cases o with
  | none => exact .none
  | some e => exact .some (.refl e)

theorem element_eq_node (hfull : group.full = true) :
    group.here .self = some (.group group.node) := by
  cases group with
  | nil => cases hfull
  | mk version modPolicy groups values policies => rfl

theorem same_of_entries (hfull : U.full = true)
    (hnode : (ConfigGroup.mk version modPolicy groups values policies).node.Same U.node)
    (hg : ∀ e ∈ groups, ∃ u, U.sub e.1 = some u ∧ e.2.Same u)
    (hv : Agree Element.value (fun k => U.here (.value k)) values)
    (hp : Agree Element.policy (fun k => U.here (.policy k)) policies) :
    (ConfigGroup.mk version modPolicy groups values policies).Same U := by
  intro p item
  cases p with
  | nil =>
    cases item with
    | self =>
      show Option.Rel _ _ (U.here .self)
      rw [element_eq_node hfull]
      exact .some hnode
    | value k =>
      show Option.Rel _ ((values.lookup k).join.map Element.value) (U.here (.value k))
      rw [hv.lookup_eq fun k => hnode.values.mem_iff.trans (mem_values_iff hfull)]
      exact rel_refl _
    | policy k =>
      show Option.Rel _ ((policies.lookup k).join.map Element.policy) (U.here (.policy k))
      rw [hp.lookup_eq fun k => hnode.policies.mem_iff.trans (mem_policies_iff hfull)]
      exact rel_refl _
  | cons k p =>
    show Option.Rel _ ((groups.lookup k).bind fun g => g.find p item)
      ((U.sub k).bind fun g => g.find p item)
    cases hk : groups.lookup k with
    | none =>
      have hnone : U.sub k = none := by
        rw [← Option.not_isSome_iff_eq_none, ← mem_groups_iff, ← hnode.groups.mem_iff]
        exact lookup_eq_none.mp hk
      rw [hnone]
      exact .none
    | some g =>
      obtain ⟨u, hu, hsame⟩ := hg _ (mem_of_lookup hk)
      rw [hu]
      exact hsame p item

/-- A full tree whose elements are in the map is rebuilt from it. -/
theorem recurseMap_of_represents (hfull : U.full = true) (hrep : Represents m q U)
    (hdepth : ∀ p, (U.find p .self).isSome → p.length < bound) :
    ∃ R, recurseConfigMap m bound (joined (rootGroupKey :: q)) = .ok R ∧ R.Same U := by
  induction bound generalizing q U with
  | zero => exact absurd (hdepth [] (find_self_isSome hfull)) (by simp)
  | succ bound ih =>
    obtain ⟨e', hown, hsame⟩ := hrep [] .self _ (element_eq_node hfull)
    obtain ⟨node, rfl, hnode⟩ := hsame.group_right
    rw [append_nil] at hown
    have hgroups : ∀ k ∈ node.groups, ∃ g,
        recurseConfigMap m bound (joined (rootGroupKey :: (q ++ [k]))) = .ok g ∧
          ∃ u, U.sub k = some u ∧ g.Same u := by
      intro k hk
      obtain ⟨u, hu⟩ := Option.isSome_iff_exists.mp (mem_groups_iff.mp (hnode.groups.mem_iff.mp hk))
      have hbelow : ∀ p, (u.find p .self).isSome → p.length < bound := by
        intro p hp
        have hlt := hdepth (k :: p) (by rw [find, hu]; exact hp)
        simpa using hlt
      obtain ⟨g, hg, hgu⟩ := ih (full_of_sub hfull hu) (hrep.sub hu) hbelow
      exact ⟨g, hg, u, hu, hgu⟩
    obtain ⟨groups, hgk, hg⟩ := exists_keyed
      (P := fun e => recurseConfigMap m bound (joined (rootGroupKey :: (q ++ [e.1]))) = .ok e.2 ∧
        ∃ u, U.sub e.1 = some u ∧ e.2.Same u) hgroups
    obtain ⟨values, hvk, hv, hv'⟩ := exists_agree fun k hk => hrep.leaf (.value k) isLeaf_value
      (fun _ => here_value) ((mem_values_iff hfull).mp (hnode.values.mem_iff.mp hk))
    obtain ⟨policies, hpk, hp, hp'⟩ := exists_agree fun k hk => hrep.leaf (.policy k)
      isLeaf_policy (fun _ => here_policy)
      ((mem_policies_iff hfull).mp (hnode.policies.mem_iff.mp hk))
    have hr : Rebuilt m bound q node groups values policies :=
      ⟨hown, hgk, hvk, hpk, fun e he => (hg e he).1, hv, hp⟩
    refine ⟨_, hr.recurseConfigMap_eq, same_of_entries hfull ?_ (fun e he => (hg e he).2) hv' hp'⟩
    exact ⟨hnode.version, hnode.modPolicy, (List.Perm.of_eq hgk).trans hnode.groups,
      (List.Perm.of_eq hvk).trans hnode.values, (List.Perm.of_eq hpk).trans hnode.policies⟩

theorem length_le_longestKey {c : Comparable} (h : m[k]? = some c) : k.length ≤ longestKey m := by
  have hmem : k ∈ m.keys := by
    rw [Std.ExtTreeMap.mem_keys]
    exact Std.ExtTreeMap.mem_iff_isSome_getElem?.mpr (by rw [h]; rfl)
  have hmax : ∀ ks : List GoString, k ∈ ks → k.length ≤ ks.foldr (fun k n => max k.length n) 0 := by
    intro ks
    induction ks with
    | nil => simp
    | cons k' ks ih =>
      intro hk
      obtain rfl | hk := mem_cons.mp hk
      · exact le_max_left ..
      · exact (ih hk).trans (le_max_right ..)
  exact hmax _ hmem

theorem length_le_keyOf (p : List GoString) (item : Item) : p.length ≤ (keyOf p item).length := by
  have hjoined : ∀ ps : List GoString, ps.length ≤ (joined ps).length := by
    intro ps
    induction ps with
    | nil => simp
    | cons k ps ih =>
      rw [joined_cons]
      simp only [length_cons, length_append]
      omega
  have h := hjoined (rootGroupKey :: p ++ item.own)
  rw [keyOf, length_append]
  simp only [cons_append, length_cons, length_append] at h ⊢
  omega

theorem toConfig_of_represents (hfull : U.full = true) (hrep : Represents m [] U) :
    ∃ R, configMapToConfig m = .ok R ∧ R.Same U := by
  refine recurseMap_of_represents hfull hrep fun p hp => ?_
  obtain ⟨e, he⟩ := Option.isSome_iff_exists.mp hp
  obtain ⟨e', he', -⟩ := hrep p .self e he
  obtain ⟨c, hc, -⟩ := Option.map_eq_some_iff.mp he'
  have hkey := length_le_longestKey hc
  have hlen := length_le_keyOf p .self
  rw [nil_append] at hkey
  omega

theorem Mapped.represents (h : Mapped m group) : Represents m [] group := by
  intro p item e hfind
  obtain ⟨c, hc, helem⟩ := h.found hfind
  exact ⟨e, by rw [elementAt, nil_append, hc]; exact congrArg some helem, .refl e⟩

/-- Elements at different places are under different keys, and a tree without nil entries is
rebuilt from its map. -/
theorem flattening_lossless (hd : group.Distinct) (hok : mapConfig group = .ok m) :
    (∀ p i e, group.find p i = some e → (∃ c, m[keyOf p i]? = some c ∧ c.element = e) ∧
        ∀ q j, (group.find q j).isSome → keyOf q j = keyOf p i → q = p ∧ j = i) ∧
      (group.full = true → ∃ R, configMapToConfig m = .ok R ∧ R.Same group) := by
  have hm := mapConfig_mapped hd hok
  refine ⟨?_, fun hfull => toConfig_of_represents hfull hm.represents⟩
  intro p i e hfind
  refine ⟨hm.found hfind, ?_⟩
  intro q j hq hkey
  obtain ⟨e', he'⟩ := Option.isSome_iff_exists.mp hq
  exact keyOf_inj (hm.plain he') (hm.plain hfind) hkey

/-- One name for a group, a value and a policy, and another that begins with it. -/
theorem shared_names_rebuilt :
    let a := ConfigGroup.mk 3 (str "A") [] [(str "a", some ⟨1, some [7], str "B"⟩)] []
    let g := ConfigGroup.mk 2 [] [(str "a", a)]
      [(str "a", some ⟨0, none, []⟩), (str "ab", some ⟨5, some [], []⟩)]
      [(str "a", some ⟨4, none, str "A"⟩)]
    ∃ m R, mapConfig g = .ok m ∧ configMapToConfig m = .ok R ∧ R.Same g := by
  intro a g
  obtain ⟨m, hm⟩ : ∃ m, mapConfig g = .ok m := ⟨_, rfl⟩
  have hne : str "a" ≠ str "ab" := by decide
  have hd : g.Distinct := by simp [g, a, Distinct, DistinctGroups, hne]
  obtain ⟨R, hR, hsame⟩ := (flattening_lossless hd hm).2 (by decide)
  exact ⟨m, R, hm, hR, hsame⟩

/-- An entry without a value is decoded as a nil pointer. -/
theorem nil_value_not_rebuilt :
    let g := ConfigGroup.mk 0 [] [] [(str "v", none)] []
    ∃ m, mapConfig g = .ok m ∧
      configMapToConfig m = fail (.text (str "Missing value at path: [Values] /Channel/v")) :=
  ⟨_, rfl, rfl⟩

/-! ## `reflect.DeepEqual` -/

theorem deepEqual_mk {version' : UInt64} {modPolicy' : GoString}
    {groups' : List (GoString × ConfigGroup)} {values' : List (GoString × Option ConfigValue)}
    {policies' : List (GoString × Option ConfigPolicy)}
    (h : (ConfigGroup.mk version modPolicy groups values policies).deepEqual
      (ConfigGroup.mk version' modPolicy' groups' values' policies') = true) :
    version = version' ∧ modPolicy = modPolicy' ∧ groups.length = groups'.length ∧
      values.length = values'.length ∧ policies.length = policies'.length ∧
      deepEqualGroups groups groups' = true ∧
      (∀ e ∈ values, values'.lookup e.1 = some e.2) ∧
      ∀ e ∈ policies, policies'.lookup e.1 = some e.2 := by
  simpa [deepEqual, and_assoc] using h

theorem agree_of_lookup (hf : ∀ e ∈ l, e.2.isSome) (h : ∀ e ∈ l, l'.lookup e.1 = some e.2) :
    Agree c (fun k => (l'.lookup k).join.map c) l := by
  intro e he
  obtain ⟨v, hv⟩ := Option.isSome_iff_exists.mp (hf e he)
  have hlook := h e he
  rw [hv] at hlook
  exact ⟨v, hv, by simp [hlook]⟩

theorem isSome_of_lookup (hnd : (l.map (·.1)).Nodup) (hnd' : (l'.map (·.1)).Nodup)
    (hlen : l.length = l'.length) (h : ∀ e ∈ l, l'.lookup e.1 = some e.2)
    (hf : ∀ e ∈ l, e.2.isSome) : ∀ e ∈ l', e.2.isSome := by
  intro e he
  have hlook := lookup_of_mem hnd' he
  rw [← lookup_eq_lookup hnd hlen h] at hlook
  exact hf _ (mem_of_lookup hlook)

mutual

/-- A full tree is deeply equal to trees that are full and the same only. -/
theorem deepEqual_same (group group' : ConfigGroup) (hd : group.Distinct) (hd' : group'.Distinct)
    (hfull : group.full = true) (h : group.deepEqual group' = true) :
    group'.full = true ∧ group.Same group' := by
  match group, group' with
  | .nil, _ => cases hfull
  | .mk .., .nil => cases h
  | .mk version modPolicy groups values policies,
      .mk version' modPolicy' groups' values' policies' =>
    obtain ⟨rfl, rfl, hlg, hlv, hlp, hg, hv, hp⟩ := deepEqual_mk h
    obtain ⟨hndg, hndv, hndp, hdg⟩ := hd
    obtain ⟨hndg', hndv', hndp', hdg'⟩ := hd'
    obtain ⟨hfg, hfv, hfp⟩ := full_mk.mp hfull
    have hg := deepEqualGroups_same groups groups' hdg (distinctGroups_iff.mp hdg') hfg hg
    have hkg := keys_perm hndg hlg fun e he => by
      obtain ⟨g, hlook, -⟩ := hg e he
      rw [hlook]
      rfl
    have hkv := keys_perm hndv hlv fun e he => by rw [hv e he]; rfl
    have hkp := keys_perm hndp hlp fun e he => by rw [hp e he]; rfl
    have hfull' : (mk version modPolicy groups' values' policies').full = true := by
      refine full_mk.mpr ⟨fun e' he' => ?_, isSome_of_lookup hndv hndv' hlv hv hfv,
        isSome_of_lookup hndp hndp' hlp hp hfp⟩
      have hk : e'.1 ∈ groups.map (·.1) := hkg.mem_iff.mpr (mem_map_of_mem he')
      obtain ⟨e, he, heq⟩ := mem_map.mp hk
      obtain ⟨g, hlook, hgfull, -⟩ := hg e he
      rw [heq, lookup_of_mem hndg' he'] at hlook
      cases hlook
      exact hgfull
    refine ⟨hfull', same_of_entries hfull' ⟨rfl, rfl, hkg, hkv, hkp⟩ (fun e he => ?_)
      (agree_of_lookup hfv hv) (agree_of_lookup hfp hp)⟩
    obtain ⟨g, hlook, -, hsame⟩ := hg e he
    exact ⟨g, hlook, hsame⟩

theorem deepEqualGroups_same (groups groups' : List (GoString × ConfigGroup))
    (hd : DistinctGroups groups) (hd' : ∀ e ∈ groups', e.2.Distinct)
    (hfull : ∀ e ∈ groups, e.2.full = true) (h : deepEqualGroups groups groups' = true) :
    ∀ e ∈ groups, ∃ g, groups'.lookup e.1 = some g ∧ g.full = true ∧ e.2.Same g := by
  match groups with
  | [] => simp
  | (key, group) :: rest =>
    rw [deepEqualGroups, Bool.and_eq_true_iff] at h
    obtain ⟨hfirst, hrest⟩ := h
    obtain ⟨hf, hfrest⟩ := forall_mem_cons.mp hfull
    refine forall_mem_cons.mpr ⟨?_, deepEqualGroups_same rest groups' hd.2 hd' hfrest hrest⟩
    split at hfirst
    · rename_i group' hlook
      obtain ⟨hf', hsame⟩ :=
        deepEqual_same group group' hd.1 (hd' _ (mem_of_lookup hlook)) hf hfirst
      exact ⟨group', hlook, hf', hsame⟩
    · cases hfirst

end

theorem ConfigGroup.Same.node (hfull : group.full = true) (hfull' : group'.full = true)
    (h : group.Same group') : group.node.Same group'.node := by
  have hself := h [] .self
  rw [find, find, element_eq_node hfull, element_eq_node hfull'] at hself
  cases hself with
  | some hnode => exact hnode

theorem ConfigGroup.Same.sub {g' : ConfigGroup} (h : group.Same group')
    (hsub : group.sub k = some g) (hsub' : group'.sub k = some g') :
    g.Same g' := by
  intro p item
  have hp := h (k :: p) item
  rw [find, find, hsub, hsub'] at hp
  exact hp

/-- Leaves that are the same are the same entries. -/
theorem IsLeaf.lookup_of_same (hc : IsLeaf c) (l' : List (GoString × Option α))
    (hnd : (l.map (·.1)).Nodup) (hf : ∀ e ∈ l, e.2.isSome)
    (h : ∀ k, Option.Rel Element.Same ((l.lookup k).join.map c) ((l'.lookup k).join.map c)) :
    ∀ e ∈ l, l'.lookup e.1 = some e.2 := by
  intro e he
  obtain ⟨w, hw⟩ := Option.isSome_iff_exists.mp (hf e he)
  have hrel := h e.1
  rw [lookup_of_mem hnd he, hw] at hrel
  cases hk : (l'.lookup e.1).join with
  | none =>
    rw [hk] at hrel
    cases hrel
  | some w' =>
    rw [hk] at hrel
    cases hrel with
    | some hsame =>
      rw [hw, hc.injective (hc.eq_of_same hsame)]
      exact Option.join_eq_some_iff.mp hk

mutual

theorem deepEqual_of_same (group group' : ConfigGroup) (hd : group.Distinct)
    (hfull : group.full = true) (hfull' : group'.full = true) (h : group.Same group') :
    group.deepEqual group' = true := by
  match group, group' with
  | .nil, _ => cases hfull
  | .mk .., .nil => cases hfull'
  | .mk version modPolicy groups values policies,
      .mk version' modPolicy' groups' values' policies' =>
    obtain ⟨hversion, hmodPolicy, hg, hv, hp⟩ := h.node hfull hfull'
    obtain ⟨hndg, hndv, hndp, hdg⟩ := hd
    obtain ⟨hfg, hfv, hfp⟩ := full_mk.mp hfull
    have hgroups : ∀ e ∈ groups, ∃ g, groups'.lookup e.1 = some g ∧ g.full = true ∧ e.2.Same g := by
      intro e he
      have hk : e.1 ∈ groups'.map (·.1) := hg.mem_iff.mp (mem_map_of_mem he)
      obtain ⟨g, hlook⟩ := Option.isSome_iff_exists.mp (lookup_isSome.mpr hk)
      have hsub : (mk version modPolicy groups values policies).sub e.1 = some e.2 :=
        lookup_of_mem hndg he
      exact ⟨g, hlook, full_of_sub hfull' hlook, h.sub hsub hlook⟩
    have hvalues := isLeaf_value.lookup_of_same values' hndv hfv fun k => h [] (.value k)
    have hpolicies := isLeaf_policy.lookup_of_same policies' hndp hfp fun k => h [] (.policy k)
    have hequal := deepEqualGroups_of_same groups groups' hdg hfg hgroups
    have hlg := hg.length_eq
    have hlv := hv.length_eq
    have hlp := hp.length_eq
    simp only [node, length_map] at hversion hmodPolicy hlg hlv hlp
    simp [deepEqual, hversion, hmodPolicy, hlg, hlv, hlp, hequal]
    exact ⟨fun a b hab => hvalues _ hab, fun a b hab => hpolicies _ hab⟩

theorem deepEqualGroups_of_same (groups groups' : List (GoString × ConfigGroup))
    (hd : DistinctGroups groups) (hfull : ∀ e ∈ groups, e.2.full = true)
    (h : ∀ e ∈ groups, ∃ g, groups'.lookup e.1 = some g ∧ g.full = true ∧ e.2.Same g) :
    deepEqualGroups groups groups' = true := by
  match groups with
  | [] => rfl
  | (key, group) :: rest =>
    obtain ⟨hf, hfrest⟩ := forall_mem_cons.mp hfull
    obtain ⟨⟨g, hlook, hgfull, hsame⟩, hrest⟩ := forall_mem_cons.mp h
    rw [deepEqualGroups, hlook, Bool.and_eq_true_iff]
    exact ⟨deepEqual_of_same group g hd.1 hf hgfull hsame,
      deepEqualGroups_of_same rest groups' hd.2 hfrest hrest⟩

end

end FabricOev.Config
