import FabricOev.Config.MapPaths
import FabricOev.Lib.AssocList

/-!
# Elements of a configuration by their place

A place is a path of group names below the root together with what is meant there: the group
itself, one of its values or one of its policies. `find` reads a tree at a place, `keyOf` is
the key of the place in the map. The map of a tree holds the elements of the tree, each under
the key of its place.
-/

namespace FabricOev.Config

open Go Lib Lib.FinMap List Result AssocList

inductive Kind where
  | group
  | value
  | policy
deriving DecidableEq, Repr

def Kind.tag : Kind → GoString
  | .group => str "[Groups] "
  | .value => str "[Values] "
  | .policy => str "[Policy] "

inductive Item where
  | self
  | value (key : GoString)
  | policy (key : GoString)
deriving DecidableEq, Repr

def Item.kind : Item → Kind
  | .self => .group
  | .value _ => .value
  | .policy _ => .policy

/-- The part of the key behind the path of the group. -/
def Item.own : Item → List GoString
  | .self => []
  | .value key => [key]
  | .policy key => [key]

def ConfigGroup.here : ConfigGroup → Item → Option Element
  | .nil, _ => none
  | .mk version modPolicy groups values policies, .self =>
    some (ConfigGroup.mk version modPolicy groups values policies).element
  | .mk _ _ _ values _, .value key => (values.lookup key).join.map .value
  | .mk _ _ _ _ policies, .policy key => (policies.lookup key).join.map .policy

def ConfigGroup.sub : ConfigGroup → GoString → Option ConfigGroup
  | .nil, _ => none
  | .mk _ _ groups _ _, key => groups.lookup key

def ConfigGroup.find (group : ConfigGroup) : List GoString → Item → Option Element
  | [], item => group.here item
  | key :: path, item => (group.sub key).bind fun g => g.find path item

theorem ConfigGroup.find_nil (p : List GoString) (item : Item) :
    ConfigGroup.nil.find p item = none := by
  cases p <;> rfl

def keyOf (path : List GoString) (item : Item) : GoString :=
  item.kind.tag ++ joined (rootGroupKey :: path ++ item.own)

/-- The comparable of an element whose key and path spell this list. -/
def comparableAt (full : List GoString) (e : Element) : Comparable :=
  ⟨e, full.getLast?.getD [], full.dropLast⟩

theorem entryOf_eq (e : Element) (path : List GoString) (key : GoString) :
    entryOf e path key = (e.pathPrefix ++ joined (path ++ [key]), comparableAt (path ++ [key]) e) := by
  simp [entryOf, comparableAt]

def Plain (k : GoString) : Prop := 0x2F ∉ k

variable {k : GoString} {p : List GoString} {q : List GoString} {i j : Item} {e : Element}
  {item : Item} {path : List GoString} {key : GoString} {group : ConfigGroup}
  {groups : List (GoString × ConfigGroup)} {m : ConfigMap}

theorem plain_of_valid (h : validConfigID k = true) : Plain k := by
  intro hmem
  simp only [validConfigID, Bool.and_eq_true, all_eq_true] at h
  have := h.2 _ hmem
  revert this
  decide

theorem joined_cons (k : GoString) (ks : List GoString) :
    joined (k :: ks) = 0x2F :: (k ++ joined ks) := rfl

theorem takeWhile_joined (hk : Plain k) (ks : List GoString) :
    (k ++ joined ks).takeWhile (· != 0x2F) = k := by
  have hall : ∀ c ∈ k, (c != 0x2F) = true := by
    intro c hc
    simp only [bne_iff_ne, ne_eq]
    rintro rfl
    exact hk hc
  rw [takeWhile_append_of_pos hall]
  cases ks with
  | nil => simp [joined]
  | cons k' ks => simp [joined_cons]

/-- Paths of names without a separator can be read back from the joined string. -/
theorem joined_inj {ps qs : List GoString} (hps : ∀ k ∈ ps, Plain k) (hqs : ∀ k ∈ qs, Plain k)
    (h : joined ps = joined qs) : ps = qs := by
  induction ps generalizing qs with
  | nil =>
    cases qs with
    | nil => rfl
    | cons q qs => cases h
  | cons p ps ih =>
    cases qs with
    | nil => cases h
    | cons q qs =>
      obtain ⟨hp, hps'⟩ := forall_mem_cons.mp hps
      obtain ⟨hq, hqs'⟩ := forall_mem_cons.mp hqs
      have htail : p ++ joined ps = q ++ joined qs := (cons.inj h).2
      have hpq : p = q := by rw [← takeWhile_joined hp ps, htail, takeWhile_joined hq qs]
      subst hpq
      exact congrArg (p :: ·) (ih hps' hqs' (append_cancel_left htail))

variable (kind : Kind)

theorem Kind.length_tag : kind.tag.length = 9 := by
  cases kind <;> decide

theorem Kind.tag_inj {k k' : Kind} (h : k.tag = k'.tag) : k = k' := by
  cases k <;> cases k' <;> first | rfl | exact absurd h (by decide)

theorem Item.eq_of_append (hkind : i.kind = j.kind) (h : p ++ i.own = q ++ j.own) :
    p = q ∧ i = j := by
  cases i with
  | self =>
    cases j with
    | self => exact ⟨by simpa [Item.own] using h, rfl⟩
    | value k | policy k => cases hkind
  | value k =>
    cases j with
    | self => cases hkind
    | value k' =>
      obtain ⟨hp, hk⟩ := append_inj' h rfl
      exact ⟨hp, by cases hk; rfl⟩
    | policy k' => cases hkind
  | policy k =>
    cases j with
    | self | value k' => cases hkind
    | policy k' =>
      obtain ⟨hp, hk⟩ := append_inj' h rfl
      exact ⟨hp, by cases hk; rfl⟩

theorem plain_rootGroupKey : Plain rootGroupKey := by
  unfold Plain
  decide

/-- A place is determined by its key. -/
theorem keyOf_inj (hp : ∀ k ∈ p ++ i.own, Plain k) (hq : ∀ k ∈ q ++ j.own, Plain k)
    (h : keyOf p i = keyOf q j) : p = q ∧ i = j := by
  obtain ⟨htag, hjoined⟩ := append_inj h ((Kind.length_tag _).trans (Kind.length_tag _).symm)
  have hpath := joined_inj (forall_mem_cons.mpr ⟨plain_rootGroupKey, hp⟩)
    (forall_mem_cons.mpr ⟨plain_rootGroupKey, hq⟩) hjoined
  exact Item.eq_of_append (Kind.tag_inj htag) (cons.inj hpath).2

/-! ## Entries and places -/

/-- The intended entry of an element at a place below the group `path ++ [key]`. -/
def placeEntry (path : List GoString) (key : GoString) (p : List GoString) (item : Item)
    (e : Element) : GoString × Comparable :=
  (item.kind.tag ++ joined (path ++ key :: p ++ item.own),
    comparableAt (path ++ key :: p ++ item.own) e)

variable (path key)

theorem placeEntry_cons (k : GoString) (p : List GoString) (item : Item) (e : Element) :
    placeEntry path key (k :: p) item e = placeEntry (path ++ [key]) k p item e := by
  simp [placeEntry]

theorem placeEntry_self (he : e.pathPrefix = Kind.group.tag) :
    placeEntry path key [] .self e = entryOf e path key := by
  simp [placeEntry, entryOf_eq, Item.own, Item.kind, he]

theorem placeEntry_member (hown : item.own = [k]) (he : e.pathPrefix = item.kind.tag) :
    placeEntry path key [] item e = entryOf e (path ++ [key]) k := by
  simp [placeEntry, entryOf_eq, hown, he]

variable {path key}

theorem entriesAt_subset_entriesOfGroups (h : (key, group) ∈ groups) :
    entriesAt path key group ⊆ entriesOfGroups path groups := by
  induction groups with
  | nil => cases h
  | cons e groups ih =>
    obtain rfl | h := mem_cons.mp h
    · exact subset_append_left ..
    · exact List.Subset.trans (ih h) (subset_append_right ..)

theorem entriesAt_sub {sub : ConfigGroup} (h : group.sub k = some sub) :
    entriesAt (path ++ [key]) k sub ⊆ entriesAt path key group := by
  cases group with
  | nil => cases h
  | mk version modPolicy groups values policies =>
    intro q hq
    refine mem_cons_of_mem _ (mem_append_left _ (mem_append_left _ ?_))
    exact entriesAt_subset_entriesOfGroups (mem_of_lookup h) hq

theorem mem_entriesAt_of_find (path : List GoString) (key : GoString)
    (h : group.find p item = some e) :
    placeEntry path key p item e ∈ entriesAt path key group := by
  induction p generalizing group path key with
  | nil =>
    cases group with
    | nil => cases h
    | mk version modPolicy groups values policies =>
      cases item with
      | self =>
        cases h
        exact mem_cons.mpr (.inl (placeEntry_self path key rfl))
      | value k =>
        obtain ⟨v, hv, rfl⟩ := Option.map_eq_some_iff.mp h
        have hmem := mem_of_lookup (Option.join_eq_some_iff.mp hv)
        refine mem_append_left _ (mem_append_right _ (mem_map.mpr ⟨_, hmem, ?_⟩))
        exact (placeEntry_member path key rfl rfl).symm
      | policy k =>
        obtain ⟨v, hv, rfl⟩ := Option.map_eq_some_iff.mp h
        have hmem := mem_of_lookup (Option.join_eq_some_iff.mp hv)
        refine mem_append_right _ (mem_map.mpr ⟨_, hmem, ?_⟩)
        exact (placeEntry_member path key rfl rfl).symm
  | cons k p ih =>
    obtain ⟨sub, hsub, hfind⟩ := Option.bind_eq_some_iff.mp h
    rw [placeEntry_cons]
    exact entriesAt_sub hsub (ih (path ++ [key]) k hfind)

/-- An entry of a nil pointer: its key has no prefix. -/
def Unset (q : GoString × Comparable) : Prop := q.2.element = .unset ∧ q.1.head? = some 0x2F

theorem head?_joined (path : List GoString) (k : GoString) :
    (joined (path ++ [k])).head? = some 0x2F := by
  cases path with
  | nil | cons p path => rfl

mutual

theorem find_of_mem_entriesAt {path : List GoString} {key : GoString} {q : GoString × Comparable}
    (group : ConfigGroup) (hd : group.Distinct) (hq : q ∈ entriesAt path key group) :
    Unset q ∨ ∃ p item, group.find p item = some q.2.element ∧
      q = placeEntry path key p item q.2.element := by
  match group with
  | .nil => cases hq
  | .mk version modPolicy groups values policies =>
    obtain ⟨hgroups, hvalues, hpolicies, hd⟩ := hd
    obtain rfl | hq := mem_cons.mp hq
    · exact .inr ⟨[], .self, rfl, (placeEntry_self path key rfl).symm⟩
    · obtain hq | hq := mem_append.mp hq
      · obtain hq | hq := mem_append.mp hq
        · obtain hunset | ⟨k, g, p, item, hmem, hfind, heq⟩ := find_of_mem_entriesOfGroups groups hd hq
          · exact .inl hunset
          · refine .inr ⟨k :: p, item, ?_, by rw [placeEntry_cons]; exact heq⟩
            exact Option.bind_eq_some_iff.mpr ⟨g, lookup_of_mem hgroups hmem, hfind⟩
        · obtain ⟨⟨k, v⟩, hmem, rfl⟩ := mem_map.mp hq
          cases v with
          | none => exact .inl ⟨rfl, head?_joined ..⟩
          | some v =>
            refine .inr ⟨[], .value k, ?_, ?_⟩
            · exact Option.map_eq_some_iff.mpr ⟨v, by rw [lookup_of_mem hvalues hmem]; rfl, rfl⟩
            · exact (placeEntry_member path key rfl rfl).symm
      · obtain ⟨⟨k, v⟩, hmem, rfl⟩ := mem_map.mp hq
        cases v with
        | none => exact .inl ⟨rfl, head?_joined ..⟩
        | some v =>
          refine .inr ⟨[], .policy k, ?_, ?_⟩
          · exact Option.map_eq_some_iff.mpr ⟨v, by rw [lookup_of_mem hpolicies hmem]; rfl, rfl⟩
          · exact (placeEntry_member path key rfl rfl).symm

theorem find_of_mem_entriesOfGroups {path : List GoString} {q : GoString × Comparable}
    (groups : List (GoString × ConfigGroup)) (hd : DistinctGroups groups)
    (hq : q ∈ entriesOfGroups path groups) :
    Unset q ∨ ∃ k g p item, (k, g) ∈ groups ∧ g.find p item = some q.2.element ∧
      q = placeEntry path k p item q.2.element := by
  match groups with
  | [] => cases hq
  | (k, g) :: rest =>
    obtain hq | hq := mem_append.mp hq
    · obtain hunset | ⟨p, item, hfind, heq⟩ := find_of_mem_entriesAt g hd.1 hq
      · exact .inl hunset
      · exact .inr ⟨k, g, p, item, mem_cons_self, hfind, heq⟩
    · obtain hunset | ⟨k', g', p, item, hmem, hfind, heq⟩ :=
        find_of_mem_entriesOfGroups rest hd.2 hq
      · exact .inl hunset
      · exact .inr ⟨k', g', p, item, mem_cons_of_mem _ hmem, hfind, heq⟩

end

/-! ## Keys of a tree that is mapped -/

theorem mapM_addToMap_valid {β : Type} {h : Arrays GoString} {path : Slice} {f : β → Element}
    {k : β → GoString} {xs : List β} {es : RawEntries}
    (hes : xs.mapM (fun x => addToMap h ⟨f x, k x, path⟩) = .ok es) :
    ∀ e ∈ es, validConfigID e.2.key = true := by
  have hrow := mapM_eq_ok.mp hes
  clear hes
  induction hrow with
  | nil => simp
  | cons hx _ ih =>
    obtain ⟨hv, rfl⟩ := addToMap_eq_ok hx
    exact forall_mem_cons.mpr ⟨hv, ih⟩

mutual

def ConfigGroup.Set : ConfigGroup → Prop
  | .nil => False
  | .mk _ _ groups _ _ => SetGroups groups

def SetGroups : List (GoString × ConfigGroup) → Prop
  | [] => True
  | (_, group) :: rest => group.Set ∧ SetGroups rest

end

mutual

/-- A tree that is walked has no nil group, and its keys are valid. -/
theorem recurseConfig_valid {h h' : Arrays GoString} {s : Slice} {es : RawEntries}
    (group : ConfigGroup) (hok : recurseConfig h s group = .ok (h', es)) :
    group.Set ∧ ∀ e ∈ es, validConfigID e.2.key = true := by
  match group with
  | .nil =>
    obtain ⟨_, _, hok⟩ := bind_ok.mp hok
    obtain ⟨_, _, hok⟩ := bind_ok.mp hok
    cases hok
  | .mk version modPolicy groups values policies =>
    obtain ⟨key, -, hok⟩ := bind_ok.mp hok
    obtain ⟨own, hown, hok⟩ := bind_ok.mp hok
    obtain ⟨⟨h1, below⟩, hbelow, hok⟩ := bind_ok.mp hok
    obtain ⟨ofValues, hvalues, hok⟩ := bind_ok.mp hok
    obtain ⟨ofPolicies, hpolicies, hok⟩ := bind_ok.mp hok
    cases hok
    obtain ⟨hset, hvalid⟩ := recurseGroups_valid groups hbelow
    obtain ⟨hv, rfl⟩ := addToMap_eq_ok hown
    refine ⟨hset, forall_mem_append.mpr ⟨?_, mapM_addToMap_valid hpolicies⟩⟩
    refine forall_mem_append.mpr ⟨?_, mapM_addToMap_valid hvalues⟩
    exact forall_mem_cons.mpr ⟨hv, hvalid⟩

theorem recurseGroups_valid {h h' : Arrays GoString} {s : Slice} {es : RawEntries}
    (groups : List (GoString × ConfigGroup)) (hok : recurseGroups h s groups = .ok (h', es)) :
    SetGroups groups ∧ ∀ e ∈ es, validConfigID e.2.key = true := by
  match groups with
  | [] =>
    cases hok
    exact ⟨trivial, by simp⟩
  | (key, group) :: rest =>
    obtain ⟨⟨h1, below⟩, hbelow, hok⟩ := bind_ok.mp hok
    obtain ⟨⟨h2, behind⟩, hbehind, hok⟩ := bind_ok.mp hok
    cases hok
    obtain ⟨hset, hvalid⟩ := recurseConfig_valid group hbelow
    obtain ⟨hsets, hvalids⟩ := recurseGroups_valid rest hbehind
    exact ⟨⟨hset, hsets⟩, forall_mem_append.mpr ⟨hvalid, hvalids⟩⟩

end

theorem mapEntries_valid {es : List (GoString × Comparable)} (hd : group.Distinct)
    (hok : mapEntries group = .ok es) :
    ∀ q ∈ entriesAt [] rootGroupKey group, validConfigID q.2.key = true := by
  have hsame := mapEntries_same hd hok
  have hkeys : es.map (·.2.key) = (entriesAt [] rootGroupKey group).map (·.2.key) := by
    have := congrArg (map (·.2.2)) hsame
    rwa [map_map, map_map] at this
  have hes : ∀ e ∈ es, validConfigID e.2.key = true := by
    by_cases hne : group = .nil
    · subst hne
      cases hok
      simp
    · obtain ⟨h, raw, hraw, rfl⟩ := mapEntries_eq_ok hok hne
      intro e he
      obtain ⟨r, hr, rfl⟩ := mem_map.mp he
      exact (recurseConfig_valid group hraw).2 r hr
  intro q hq
  have hmem : q.2.key ∈ es.map (·.2.key) := hkeys ▸ mem_map_of_mem hq
  obtain ⟨e, he, heq⟩ := mem_map.mp hmem
  exact heq ▸ hes e he

theorem SetGroups.of_mem (h : SetGroups groups) (hmem : (key, group) ∈ groups) : group.Set := by
  induction groups with
  | nil => cases hmem
  | cons e groups ih =>
    obtain rfl | hmem := mem_cons.mp hmem
    · exact h.1
    · exact ih h.2 hmem

theorem mem_entriesAt_self (h : group.Set) :
    entryOf group.element path key ∈ entriesAt path key group := by
  cases group with
  | nil => cases h
  | mk version modPolicy groups values policies => exact mem_cons_self

def GroupNode.members (node : GroupNode) : List GoString :=
  node.groups ++ node.values ++ node.policies

theorem valid_members {node : GroupNode} (hset : group.Set)
    (hvalid : ∀ q ∈ entriesAt path key group, validConfigID q.2.key = true)
    (h : group.find p .self = some (.group node)) :
    ∀ k ∈ node.members, validConfigID k = true := by
  induction p generalizing group path key with
  | nil =>
    cases group with
    | nil => cases h
    | mk version modPolicy groups values policies =>
      cases h
      intro k hk
      obtain hk | hk := mem_append.mp hk
      · obtain hk | hk := mem_append.mp hk
        · obtain ⟨⟨k, g⟩, hmem, rfl⟩ := mem_map.mp hk
          refine hvalid (entryOf g.element (path ++ [key]) k) ?_
          refine mem_cons_of_mem _ (mem_append_left _ (mem_append_left _ ?_))
          exact entriesAt_subset_entriesOfGroups hmem
            (mem_entriesAt_self (SetGroups.of_mem hset hmem))
        · obtain ⟨⟨k, v⟩, hmem, rfl⟩ := mem_map.mp hk
          refine hvalid (entryOf (.ofValue v) (path ++ [key]) k) ?_
          exact mem_append_left _ (mem_append_right _ (mem_map.mpr ⟨_, hmem, rfl⟩))
      · obtain ⟨⟨k, v⟩, hmem, rfl⟩ := mem_map.mp hk
        refine hvalid (entryOf (.ofPolicy v) (path ++ [key]) k) ?_
        exact mem_append_right _ (mem_map.mpr ⟨_, hmem, rfl⟩)
  | cons k p ih =>
    obtain ⟨sub, hsub, hfind⟩ := Option.bind_eq_some_iff.mp h
    cases group with
    | nil => cases hsub
    | mk version modPolicy groups values policies =>
      have hbelow : ∀ q ∈ entriesAt (path ++ [key]) k sub, validConfigID q.2.key = true :=
        fun q hq => hvalid q (entriesAt_sub hsub hq)
      exact ih (SetGroups.of_mem hset (mem_of_lookup hsub)) hbelow hfind

theorem valid_of_members (hmembers : ∀ p node, group.find p .self = some (.group node) →
      ∀ k ∈ node.members, validConfigID k = true) (h : group.find p item = some e) :
    ∀ k ∈ p ++ item.own, validConfigID k = true := by
  induction p generalizing group with
  | nil =>
    cases group with
    | nil => cases h
    | mk version modPolicy groups values policies =>
      have hown := hmembers [] _ rfl
      cases item with
      | self => simp [Item.own]
      | value k =>
        obtain ⟨v, hv, -⟩ := Option.map_eq_some_iff.mp h
        have hmem := mem_of_lookup (Option.join_eq_some_iff.mp hv)
        have hk : k ∈ values.map (·.1) := mem_map.mpr ⟨_, hmem, rfl⟩
        simpa [Item.own] using hown k (mem_append_left _ (mem_append_right _ hk))
      | policy k =>
        obtain ⟨v, hv, -⟩ := Option.map_eq_some_iff.mp h
        have hmem := mem_of_lookup (Option.join_eq_some_iff.mp hv)
        have hk : k ∈ policies.map (·.1) := mem_map.mpr ⟨_, hmem, rfl⟩
        simpa [Item.own] using hown k (mem_append_right _ hk)
  | cons k p ih =>
    obtain ⟨sub, hsub, hfind⟩ := Option.bind_eq_some_iff.mp h
    rw [cons_append, forall_mem_cons]
    refine ⟨?_, ih (fun p' node hnode => hmembers (k :: p') node ?_) hfind⟩
    · cases group with
      | nil => cases hsub
      | mk version modPolicy groups values policies =>
        have hk : k ∈ groups.map (·.1) := mem_map.mpr ⟨_, mem_of_lookup hsub, rfl⟩
        exact hmembers [] _ rfl k (mem_append_left _ (mem_append_left _ hk))
    · exact Option.bind_eq_some_iff.mpr ⟨sub, hsub, hnode⟩

/-- The elements of the tree under the keys of their places, and else nil entries only. -/
structure Mapped (m : ConfigMap) (group : ConfigGroup) : Prop where
  found : ∀ {p item e}, group.find p item = some e → ∃ c, m[keyOf p item]? = some c ∧ c.element = e
  only : ∀ {k c}, m[k]? = some c → Unset (k, c) ∨
    ∃ p item, group.find p item = some c.element ∧ k = keyOf p item
  members : ∀ p node, group.find p .self = some (.group node) →
    ∀ k ∈ node.members, validConfigID k = true

theorem Mapped.plain (hm : Mapped m group) (h : group.find p item = some e) :
    ∀ k ∈ p ++ item.own, Plain k :=
  fun k hk => plain_of_valid (valid_of_members hm.members h k hk)

theorem Kind.head?_tag (s : GoString) : (kind.tag ++ s).head? = some 0x5B := by
  cases kind <;> rfl

theorem not_unset_keyOf (p : List GoString) (item : Item) (c : Comparable) :
    ¬ Unset (keyOf p item, c) := by
  rintro ⟨-, hhead⟩
  have h : (keyOf p item).head? = some 0x5B := Kind.head?_tag ..
  rw [h] at hhead
  exact absurd hhead (by decide)

theorem mapConfig_eq_ok (h : mapConfig group = .ok m) :
    ∃ es, mapEntries group = .ok es ∧ m = insertAll ∅ es := by
  obtain ⟨es, hes, hm⟩ := bind_ok.mp h
  cases hm
  exact ⟨es, hes, rfl⟩

theorem entry_of_mapConfig (hd : group.Distinct) (hok : mapConfig group = .ok m) {c : Comparable}
    (h : m[k]? = some c) :
    ∃ q ∈ entriesAt [] rootGroupKey group, q.1 = k ∧ q.2.element = c.element ∧ q.2.key = c.key := by
  obtain ⟨es, hes, rfl⟩ := mapConfig_eq_ok hok
  have hmem : (k, c) ∈ es := by
    obtain h | h := getElem?_insertAll_cases h
    · simp at h
    · exact h
  have hrow := mem_map_of_mem (f := fun e => (e.1, e.2.element, e.2.key)) hmem
  rw [mapEntries_same hd hes] at hrow
  obtain ⟨q, hq, heq⟩ := mem_map.mp hrow
  obtain ⟨hk, heq⟩ := Prod.mk.inj heq
  obtain ⟨helem, hkey⟩ := Prod.mk.inj heq
  exact ⟨q, hq, hk, helem, hkey⟩

theorem getElem?_mapConfig (hd : group.Distinct) (hok : mapConfig group = .ok m)
    {q : GoString × Comparable} (hq : q ∈ entriesAt [] rootGroupKey group) :
    ∃ c, m[q.1]? = some c := by
  obtain ⟨es, hes, rfl⟩ := mapConfig_eq_ok hok
  have hkeys := congrArg (map (·.1)) (mapEntries_same hd hes)
  rw [map_map, map_map] at hkeys
  have hmem : q.1 ∈ es.map (·.1) := hkeys ▸ mem_map_of_mem hq
  obtain ⟨⟨k, c⟩, hc, rfl⟩ := mem_map.mp hmem
  exact exists_getElem?_insertAll hc

theorem mapConfig_mapped (hd : group.Distinct) (hok : mapConfig group = .ok m) :
    Mapped m group := by
  obtain ⟨es, hes, -⟩ := mapConfig_eq_ok hok
  have hvalid := mapEntries_valid hd hes
  have hmembers : ∀ p node, group.find p .self = some (.group node) →
      ∀ k ∈ node.members, validConfigID k = true := by
    intro p node hfind
    have hne : group ≠ .nil := by
      rintro rfl
      rw [ConfigGroup.find_nil] at hfind
      cases hfind
    obtain ⟨h, raw, hraw, -⟩ := mapEntries_eq_ok hes hne
    exact valid_members (recurseConfig_valid group hraw).1 hvalid hfind
  have honly : ∀ {k c}, m[k]? = some c → Unset (k, c) ∨
      ∃ p item, group.find p item = some c.element ∧ k = keyOf p item := by
    intro k c h
    obtain ⟨q, hq, rfl, helem, -⟩ := entry_of_mapConfig hd hok h
    obtain ⟨hunset, hhead⟩ | ⟨p, item, hfind, heq⟩ := find_of_mem_entriesAt group hd hq
    · exact .inl ⟨helem ▸ hunset, hhead⟩
    · exact .inr ⟨p, item, helem ▸ hfind, congrArg Prod.fst heq⟩
  refine ⟨?_, honly, hmembers⟩
  intro p item e hfind
  obtain ⟨c', hc'⟩ := getElem?_mapConfig hd hok (mem_entriesAt_of_find [] rootGroupKey hfind)
  refine ⟨c', hc', ?_⟩
  obtain hunset | ⟨p', item', hfind', hk'⟩ := honly hc'
  · exact absurd hunset (not_unset_keyOf p item c')
  · obtain ⟨rfl, rfl⟩ := keyOf_inj (fun k hk => plain_of_valid (valid_of_members hmembers hfind k hk))
      (fun k hk => plain_of_valid (valid_of_members hmembers hfind' k hk)) hk'
    exact Option.some.inj (hfind'.symm.trans hfind)

end FabricOev.Config
