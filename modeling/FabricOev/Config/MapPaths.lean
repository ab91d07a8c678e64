import FabricOev.Config.ConfigMap

/-!
# Paths in the map of elements

The key of an entry is made when the entry is made and is always right. The path in the entry
is read later: subgroups of one group whose path has room behind it write their names into
the same place, so entries below all but the last of them show the last one's name.
-/

namespace FabricOev.Config

open Go Lib.FinMap List Slice Result Nat Except

/-- An entry under the key that its path and its own key spell. -/
def entryOf (element : Element) (path : List GoString) (key : GoString) : GoString × Comparable :=
  (element.pathPrefix ++ joined (path ++ [key]), ⟨element, key, path⟩)

mutual

def entriesAt (path : List GoString) (key : GoString) : ConfigGroup → List (GoString × Comparable)
  | .nil => []
  | .mk version modPolicy groups values policies =>
    entryOf (ConfigGroup.mk version modPolicy groups values policies).element path key ::
      entriesOfGroups (path ++ [key]) groups ++
      values.map (fun e => entryOf (.ofValue e.2) (path ++ [key]) e.1) ++
      policies.map (fun e => entryOf (.ofPolicy e.2) (path ++ [key]) e.1)

def entriesOfGroups (path : List GoString) :
    List (GoString × ConfigGroup) → List (GoString × Comparable)
  | [] => []
  | (key, group) :: rest => entriesAt path key group ++ entriesOfGroups path rest

end

def entriesBelow (path : List GoString) : ConfigGroup → List (GoString × Comparable)
  | .nil => []
  | .mk _ _ groups values policies =>
    entriesOfGroups path groups ++ values.map (fun e => entryOf (.ofValue e.2) path e.1) ++
      policies.map (fun e => entryOf (.ofPolicy e.2) path e.1)

/-- Nothing below the group has a path in the array of the group's own path. -/
def Bare (room : Bool) : ConfigGroup → Prop
  | .nil => True
  | .mk _ _ groups values policies => values = [] ∧ policies = [] ∧ (room = true → groups = [])

mutual

/-- The paths below a group are kept; `len` and `cap` are length and capacity of its path. -/
def PathsKept (len cap : Nat) : ConfigGroup → Prop
  | .nil => True
  | .mk _ _ groups _ _ => PathsKeptGroups len cap groups

/-- With room behind the path, every subgroup but the last one is bare. -/
def PathsKeptGroups (len cap : Nat) : List (GoString × ConfigGroup) → Prop
  | [] => True
  | (_, group) :: rest =>
    (len < cap → rest ≠ [] → Bare (decide (len + 1 < cap)) group) ∧
      PathsKept (len + 1) (nextCap len cap) group ∧ PathsKeptGroups len cap rest

end

mutual

def ConfigGroup.Distinct : ConfigGroup → Prop
  | .nil => True
  | .mk _ _ groups values policies =>
    (groups.map (·.1)).Nodup ∧ (values.map (·.1)).Nodup ∧ (policies.map (·.1)).Nodup ∧
      DistinctGroups groups

def DistinctGroups : List (GoString × ConfigGroup) → Prop
  | [] => True
  | (_, group) :: rest => group.Distinct ∧ DistinctGroups rest

end

/-! ## The recursion -/

def shown (h : Arrays GoString) (es : RawEntries) : List (List GoString) :=
  es.map fun e => e.2.path.read h

def Matches (es : RawEntries) (qs : List (GoString × Comparable)) : Prop :=
  es.map (fun e => (e.1, e.2.element, e.2.key)) = qs.map (fun q => (q.1, q.2.element, q.2.key))

variable {es : RawEntries} {qs : List (GoString × Comparable)} {es' : RawEntries}
  {qs' : List (GoString × Comparable)} {path : Slice} {i : Nat}

theorem Matches.append (h : Matches es qs) (h' : Matches es' qs') :
    Matches (es ++ es') (qs ++ qs') := by
  unfold Matches at h h' ⊢
  rw [map_append, map_append, h, h']

theorem Matches.length (h : Matches es qs) : es.length = qs.length := by
  have := congrArg List.length h
  simpa using this

theorem shown_append_iff {h : Arrays GoString} (hm : Matches es qs) :
    shown h (es ++ es') = (qs ++ qs').map (·.2.path) ↔
      shown h es = qs.map (·.2.path) ∧ shown h es' = qs'.map (·.2.path) := by
  rw [shown, map_append, map_append]
  constructor
  · intro heq
    exact append_inj heq (by simpa [shown] using hm.length)
  · rintro ⟨h₁, h₂⟩
    exact congrArg₂ (· ++ ·) h₁ h₂

theorem mapM_addToMap {β : Type} {h : Arrays GoString} {p : List GoString} (hp : path.read h = p)
    {f : β → Element} {k : β → GoString} {xs : List β}
    (hes : xs.mapM (fun x => addToMap h ⟨f x, k x, path⟩) = .ok es) :
    Matches es (xs.map fun x => entryOf (f x) p (k x)) ∧ (∀ e ∈ es, e.2.path = path) ∧
      shown h es = (xs.map fun x => entryOf (f x) p (k x)).map (·.2.path) ∧
      (es = [] ↔ xs = []) := by
  have hrow := mapM_eq_ok.mp hes
  clear hes
  induction hrow with
  | nil => exact ⟨rfl, by simp, rfl, by simp⟩
  | @cons x e xs es hx _ ih =>
    obtain ⟨hm, hpath, hshown, -⟩ := ih
    unfold addToMap at hx
    split at hx
    case isFalse => cases hx
    case isTrue =>
      cases hx
      refine ⟨?_, ?_, ?_, by simp⟩
      · unfold Matches at hm ⊢
        rw [map_cons, map_cons, map_cons, hm, hp]
        rfl
      · exact forall_mem_cons.mpr ⟨rfl, hpath⟩
      · exact congrArg₂ (· :: ·) hp hshown

/-- Where entries made by a walk have their paths: in the array of the path they started from,
behind it, or in a new array. -/
def Located (n n' : Nat) (s : Slice) (es : RawEntries) : Prop :=
  ∀ e ∈ es, (e.2.path.array = s.array ∧ s.len ≤ e.2.path.len) ∨
    (n ≤ e.2.path.array ∧ e.2.path.array < n')

def Touches (i : Nat) (es : RawEntries) : Prop := ∃ e ∈ es, e.2.path.array = i

/-- A walk over the subgroups of the group with the path `p`. -/
structure GroupsWalk (h : Arrays GoString) (s : Slice) (cap : Nat) (p : List GoString)
    (groups : List (GoString × ConfigGroup)) (h' : Arrays GoString) (es : RawEntries) : Prop where
  ext : Extends h h' s.array s.len
  same : Matches es (entriesOfGroups p groups)
  located : Located h.length h'.length s es
  touches : Touches s.array es ↔ s.len < cap ∧ groups ≠ []
  last : s.len < cap → ∀ key ∈ (groups.map (·.1)).getLast?,
    (h'[s.array]?.bind (·.items[s.len]?)) = some key
  kept : shown h' es = (entriesOfGroups p groups).map (·.2.path) ↔ PathsKeptGroups s.len cap groups

/-- A walk over the group with the path `p ++ [key]`. -/
structure GroupWalk (h : Arrays GoString) (s : Slice) (cap : Nat) (p : List GoString)
    (key : GoString) (group : ConfigGroup) (h' : Arrays GoString)
    (own : GoString × ComparableOver Slice) (es : RawEntries) : Prop where
  ext : Extends h h' s.array s.len
  own_path : own.2.path = ⟨s.array, s.len - 1⟩
  same : Matches (own :: es) (entriesAt p key group)
  located : Located h.length h'.length s es
  touches : Touches s.array es ↔ ¬ Bare (decide (s.len < cap)) group
  kept : shown h' (own :: es) = (entriesAt p key group).map (·.2.path) ↔ PathsKept s.len cap group

theorem addToMap_eq_ok {h : Arrays GoString} {cg : ComparableOver Slice}
    {e : GoString × ComparableOver Slice} (hok : addToMap h cg = .ok e) :
    validConfigID cg.key = true ∧
      e = (cg.element.pathPrefix ++ joined (cg.path.read h ++ [cg.key]), cg) := by
  unfold addToMap at hok
  split at hok
  case isTrue hv => exact ⟨hv, (ok.inj hok).symm⟩
  case isFalse => cases hok

theorem touches_append : Touches i (es ++ es') ↔ Touches i es ∨ Touches i es' := by
  simp only [Touches, mem_append, or_and_right, exists_or]

theorem touches_of_path (hi : path.array = i) (h : ∀ e ∈ es, e.2.path = path) :
    Touches i es ↔ es ≠ [] := by
  constructor
  · rintro ⟨e, he, -⟩ rfl
    cases he
  · intro hne
    obtain ⟨e, he⟩ := exists_mem_of_ne_nil es hne
    exact ⟨e, he, by rw [h e he, hi]⟩

mutual

theorem isPrefix_of_mem_entriesAt {path : List GoString} {key : GoString} (group : ConfigGroup)
    {q : GoString × Comparable} (hq : q ∈ entriesAt path key group) : path <+: q.2.path := by
  match group with
  | .nil => cases hq
  | .mk version modPolicy groups values policies =>
    obtain rfl | hq := mem_cons.mp hq
    · exact prefix_rfl
    · obtain hq | hq := mem_append.mp hq
      · obtain hq | hq := mem_append.mp hq
        · exact (prefix_append ..).trans (isPrefix_of_mem_entriesOfGroups groups hq)
        · obtain ⟨e, -, rfl⟩ := mem_map.mp hq
          exact prefix_append ..
      · obtain ⟨e, -, rfl⟩ := mem_map.mp hq
        exact prefix_append ..

theorem isPrefix_of_mem_entriesOfGroups {path : List GoString}
    (groups : List (GoString × ConfigGroup)) {q : GoString × Comparable}
    (hq : q ∈ entriesOfGroups path groups) : path <+: q.2.path := by
  match groups with
  | [] => cases hq
  | (key, group) :: rest =>
    obtain hq | hq := mem_append.mp hq
    · exact isPrefix_of_mem_entriesAt group hq
    · exact isPrefix_of_mem_entriesOfGroups rest hq

end

theorem isPrefix_of_mem_entriesBelow {path : List GoString} (group : ConfigGroup)
    {q : GoString × Comparable} (hq : q ∈ entriesBelow path group) : path <+: q.2.path := by
  match group with
  | .nil => cases hq
  | .mk version modPolicy groups values policies =>
    obtain hq | hq := mem_append.mp hq
    · obtain hq | hq := mem_append.mp hq
      · exact isPrefix_of_mem_entriesOfGroups groups hq
      · obtain ⟨e, -, rfl⟩ := mem_map.mp hq
        exact prefix_rfl
    · obtain ⟨e, -, rfl⟩ := mem_map.mp hq
      exact prefix_rfl

theorem shown_of_not_touches {h h' : Arrays GoString} {len : Nat} (hext : Extends h h' i len)
    (hbound : ∀ e ∈ es, e.2.path.array < h.length) (hnot : ¬ Touches i es) :
    shown h' es = shown h es := by
  refine map_congr_left fun e he => read_of_getElem? ?_
  exact hext.others _ (hbound e he) fun heq => hnot ⟨e, he, heq⟩

theorem isPrefix_take_read {s : Slice} {h h' : Arrays GoString} {cap : Nat} (hs : s.In h cap)
    (hext : Extends h h' s.array s.len) (n : Nat) (hn : n ≤ s.len) :
    Slice.read h' ⟨s.array, n⟩ = (s.read h).take n := by
  obtain ⟨items, hfound, hle⟩ := hs.found
  obtain ⟨items', hfound', htake, -⟩ := hext.kept _ hfound hle
  rw [Slice.read, Slice.read, hfound, hfound']
  dsimp only
  rw [← htake, take_take, min_eq_left hn]

section Group

variable {h h' : Arrays GoString} {s : Slice} {cap : Nat} {p : List GoString} {key : GoString}
  {group : ConfigGroup} {rest : List (GoString × ConfigGroup)}
  {own : GoString × ComparableOver Slice} {below behind : RawEntries} {h₁ h₂ : Arrays GoString}

theorem GroupsWalk.toGroup {version : UInt64} {modPolicy : GoString}
    {groups : List (GoString × ConfigGroup)} {values : List (GoString × Option ConfigValue)}
    {policies : List (GoString × Option ConfigPolicy)} {below ofValues ofPolicies : RawEntries}
    (hs : s.In h cap) (hread : s.read h = p ++ [key])
    (hown : addToMap h ⟨(ConfigGroup.mk version modPolicy groups values policies).element, key,
      ⟨s.array, s.len - 1⟩⟩ = .ok own) (hw : GroupsWalk h s cap (p ++ [key]) groups h' below)
    (hvalues : (values.mapM fun e => addToMap h' ⟨.ofValue e.2, e.1, s⟩) = .ok ofValues)
    (hpolicies : (policies.mapM fun e => addToMap h' ⟨.ofPolicy e.2, e.1, s⟩) = .ok ofPolicies) :
    GroupWalk h s cap p key (.mk version modPolicy groups values policies) h' own
      (below ++ ofValues ++ ofPolicies) := by
  obtain ⟨hs', hread'⟩ := hs.extends hw.ext
  rw [hread] at hread'
  obtain ⟨hvm, hvpath, hvshown, hvnil⟩ := mapM_addToMap hread' hvalues
  obtain ⟨hpm, hppath, hpshown, hpnil⟩ := mapM_addToMap hread' hpolicies
  obtain ⟨-, rfl⟩ := addToMap_eq_ok hown
  -- the group's own path is its path without the last part
  have hlen : (p ++ [key]).length = s.len := hread ▸ length_read hs
  have hdrop : ∀ {h''}, Extends h h'' s.array s.len → read h'' ⟨s.array, s.len - 1⟩ = p := by
    intro h'' hext
    rw [isPrefix_take_read hs hext _ (sub_le ..), hread, ← hlen]
    simp
  have hbelow : Matches (below ++ ofValues ++ ofPolicies) (entriesBelow (p ++ [key])
      (.mk version modPolicy groups values policies)) := (hw.same.append hvm).append hpm
  refine ⟨hw.ext, rfl, ?_, ?_, ?_, ?_⟩
  · have hfirst : read h ⟨s.array, s.len - 1⟩ = p := hdrop (Extends.refl ..)
    unfold Matches at hbelow ⊢
    rw [map_cons, hbelow, hfirst]
    rfl
  · intro e he
    obtain he | he := mem_append.mp he
    · obtain he | he := mem_append.mp he
      · exact hw.located e he
      · rw [hvpath e he]
        exact .inl ⟨rfl, le_refl _⟩
    · rw [hppath e he]
      exact .inl ⟨rfl, le_refl _⟩
  · rw [touches_append, touches_append, hw.touches, touches_of_path rfl hvpath,
      touches_of_path rfl hppath, Bare]
    grind
  · have hrest : shown h' (below ++ ofValues ++ ofPolicies) = (entriesBelow (p ++ [key])
        (.mk version modPolicy groups values policies)).map (·.2.path) ↔
          PathsKeptGroups s.len cap groups := by
      rw [entriesBelow, shown_append_iff (hw.same.append hvm), shown_append_iff hw.same, hw.kept]
      exact ⟨fun hall => hall.1.1, fun hkept => ⟨⟨hkept, hvshown⟩, hpshown⟩⟩
    rw [PathsKept, ← hrest, shown, map_cons, hdrop hw.ext]
    exact cons_inj_right p

/-- A walk over a subgroup leaves what the path of the group shows. -/
theorem GroupWalk.ext_parent {cap' : Nat} (hs : s.In h cap)
    (hw : GroupWalk (s.append h key).1 (s.append h key).2 cap' p key group h₁ own below) :
    Extends h h₁ s.array s.len := by
  by_cases hroom : s.len < cap
  · obtain ⟨hnext, ⟨⟨items, hfound, hle⟩, -⟩, -, -, hext⟩ := append_shared hs hroom key
    rw [hnext] at hw hfound hle
    refine hext.trans (hw.ext.shorter (le_succ _) fun a ha => ?_)
    cases ha.symm.trans hfound
    exact hle
  · obtain ⟨hnext, -, -, hlen, hsame⟩ := append_full hs hroom key
    rw [hnext] at hw
    have hbetween := hw.ext.length
    refine Extends.of_same (by omega) fun j hj => ?_
    rw [hw.ext.others j (by omega) (Nat.ne_of_lt hj), hsame j hj]

/-- A subgroup whose path is a copy: nothing that follows writes into the copy. -/
theorem GroupWalk.cons_full (hs : s.In h cap) (hfull : ¬ s.len < cap)
    (hw : GroupWalk (s.append h key).1 (s.append h key).2 (growCap s.len) p key group h₁ own below)
    (hrest : GroupsWalk h₁ s cap p rest h₂ behind) :
    GroupsWalk h s cap p ((key, group) :: rest) h₂ (own :: below ++ behind) := by
  have hext := (hw.ext_parent hs).trans hrest.ext
  obtain ⟨hnext, -, -, hlen, -⟩ := append_full hs hfull key
  rw [hnext] at hw
  have hbetween := hw.ext.length
  have hlast := hrest.ext.length
  obtain ⟨items, hfound, -⟩ := hs.found
  have hs_lt : s.array < h.length := lt_length hfound
  have hchild : ∀ e ∈ own :: below, h.length ≤ e.2.path.array ∧ e.2.path.array < h₁.length := by
    intro e he
    obtain rfl | he := mem_cons.mp he
    · rw [hw.own_path]
      exact ⟨le_refl _, by show h.length < _; omega⟩
    · obtain ⟨heq, -⟩ | ⟨hge, hlt⟩ := hw.located e he
      · rw [heq]
        exact ⟨le_refl _, by show h.length < _; omega⟩
      · exact ⟨by omega, hlt⟩
  have hnot : ¬ Touches s.array (own :: below) := by
    rintro ⟨e, he, heq⟩
    have := (hchild e he).1
    omega
  refine ⟨hext, hw.same.append hrest.same, ?_, ?_, fun hlt => absurd hlt hfull, ?_⟩
  · intro e he
    obtain he | he := mem_append.mp he
    · have := hchild e he
      exact .inr ⟨this.1, by omega⟩
    · obtain hin | ⟨hge, hlt⟩ := hrest.located e he
      · exact .inl hin
      · exact .inr ⟨by omega, hlt⟩
  · rw [touches_append, hrest.touches]
    simp [hnot, hfull]
  · rw [entriesOfGroups, shown_append_iff hw.same, hrest.kept, PathsKeptGroups,
      shown_of_not_touches hrest.ext (fun e he => (hchild e he).2) hnot, hw.kept]
    simp [nextCap, hfull]

section Shared

variable (hs : s.In h cap) (hread : s.read h = p) (hroom : s.len < cap)
  (hw : GroupWalk (s.append h key).1 (s.append h key).2 cap p key group h₁ own below)
include hs hread hroom hw

/-- What stands behind the path of a group after a walk over one of its subgroups. -/
theorem GroupWalk.name_behind : (h₁[s.array]?.bind (·.items[s.len]?)) = some key := by
  obtain ⟨hnext, hin, hreadnext, -, -⟩ := append_shared hs hroom key
  obtain ⟨⟨items, hfound, hle⟩, hreadnext'⟩ := (hin.extends hw.ext).imp_left Slice.In.found
  rw [hreadnext, hread, Slice.read, hfound] at hreadnext'
  rw [hnext] at hfound hle hreadnext'
  have hplen : p.length = s.len := hread ▸ length_read hs
  rw [hfound]
  have hget := congrArg (·[s.len]?) hreadnext'
  simpa [getElem?_take, ← hplen] using hget

/-- Another name behind the group's path makes the paths below the subgroup wrong. -/
theorem GroupWalk.not_shown {key' : GoString}
    (hlast : (h₂[s.array]?.bind (·.items[s.len]?)) = some key') (hne : key ≠ key')
    (htouches : Touches s.array below) :
    shown h₂ (own :: below) ≠ (entriesAt p key group).map (·.2.path) := by
  intro hshown
  obtain ⟨hnext, -⟩ := append_shared hs hroom key
  rw [hnext] at hw
  obtain ⟨e, he, harray⟩ := htouches
  have hplen : p.length = s.len := hread ▸ length_read hs
  match group with
  | .nil => cases hshown
  | .mk version modPolicy groups values policies =>
    have htail := (cons.inj hshown).2
    have hmem : e.2.path.read h₂ ∈ below.map fun e => e.2.path.read h₂ := mem_map_of_mem he
    rw [htail] at hmem
    obtain ⟨q, hq, hqe⟩ := mem_map.mp hmem
    obtain ⟨t, ht⟩ := isPrefix_of_mem_entriesBelow (.mk version modPolicy groups values policies) hq
    -- the path that is meant has `key` there, the path that is shown has `key'`
    have hkey : (e.2.path.read h₂)[s.len]? = some key := by
      rw [← hqe, ← ht, ← hplen]
      simp
    have hkey' : (e.2.path.read h₂)[s.len]? = some key' := by
      have hlen : s.len < e.2.path.len := by
        obtain ⟨-, hlen⟩ | ⟨hge, -⟩ := hw.located e he
        · exact hlen
        · obtain ⟨items, hfound, -⟩ := hs.found
          have := lt_length hfound
          have := (append_shared hs hroom key).2.2.2.1
          omega
      obtain ⟨a, ha, hitem⟩ := Option.bind_eq_some_iff.mp hlast
      rw [Slice.read, harray, ha]
      rwa [getElem?_take_of_lt hlen]
    exact hne (Option.some.inj (hkey.symm.trans hkey'))

/-- A subgroup whose path is written where the subgroups that follow write as well. -/
theorem GroupWalk.cons_shared (hrest : GroupsWalk h₁ s cap p rest h₂ behind)
    (hnil : rest = [] → h₂ = h₁) (hnd : key ∉ rest.map (·.1)) :
    GroupsWalk h s cap p ((key, group) :: rest) h₂ (own :: below ++ behind) := by
  have hname := hw.name_behind hs hread hroom
  have hwrong : ∀ key', (h₂[s.array]?.bind (·.items[s.len]?)) = some key' → key ≠ key' →
      Touches s.array below → shown h₂ (own :: below) ≠ (entriesAt p key group).map (·.2.path) :=
    fun key' => hw.not_shown hs hread hroom
  have hin := (hs.extends (hw.ext_parent hs)).1
  have hext := (hw.ext_parent hs).trans hrest.ext
  obtain ⟨hnext, -, -, hlen, -⟩ := append_shared hs hroom key
  rw [hnext] at hw
  have hbetween := hw.ext.length
  have hafter := hrest.ext.length
  have hown : own.2.path = ⟨s.array, s.len⟩ := hw.own_path
  refine ⟨hext, hw.same.append hrest.same, ?_, ?_, ?_, ?_⟩
  · intro e he
    obtain he | he := mem_append.mp he
    · obtain rfl | he := mem_cons.mp he
      · rw [hown]
        exact .inl ⟨rfl, le_refl _⟩
      · obtain ⟨heq, hle⟩ | ⟨hge, hlt⟩ := hw.located e he
        · exact .inl ⟨heq, le_of_succ_le hle⟩
        · exact .inr ⟨by omega, by omega⟩
    · obtain hin | ⟨hge, hlt⟩ := hrest.located e he
      · exact .inl hin
      · exact .inr ⟨by omega, hlt⟩
  · exact ⟨fun _ => ⟨hroom, cons_ne_nil _ _⟩, fun _ => ⟨own, by simp, by rw [hown]⟩⟩
  · intro _ key' hkey'
    cases rest with
    | nil =>
      rw [hnil rfl]
      simpa using hname.trans hkey'
    | cons r rest => exact hrest.last hroom key' (by simpa using hkey')
  · rw [entriesOfGroups, shown_append_iff hw.same, hrest.kept, PathsKeptGroups, ← and_assoc]
    refine and_congr_left fun _ => ?_
    rw [show nextCap s.len cap = cap from if_pos hroom, ← hw.kept]
    by_cases hempty : rest = []
    · rw [hnil hempty]
      simp [hempty]
    · -- a later subgroup has written its name over this one's
      obtain ⟨key', hkey'⟩ := Option.isSome_iff_exists.mp
        (getLast?_isSome.mpr (mt map_eq_nil_iff.mp hempty))
      have hne : key ≠ key' := by
        rintro rfl
        exact hnd (mem_of_getLast? hkey')
      have hbare := hw.touches
      have hshown : ¬ Touches s.array below → shown h₂ (own :: below) = shown h₁ (own :: below) := by
        intro hnot
        rw [shown, map_cons, shown, map_cons, hown, (hin.extends hrest.ext).2]
        refine congrArg (_ :: ·) (shown_of_not_touches hrest.ext (fun e he => ?_) hnot)
        obtain ⟨heq, -⟩ | ⟨-, hlt⟩ := hw.located e he
        · exact absurd ⟨e, he, heq⟩ hnot
        · exact hlt
      constructor
      · intro hall
        have hnot : ¬ Touches s.array below := fun ht =>
          hwrong key' (hrest.last hroom key' hkey') hne ht hall
        rw [hshown hnot] at hall
        exact ⟨fun _ _ => not_not.mp (mt hbare.mpr hnot), hall⟩
      · rintro ⟨hb, hall⟩
        have hnot : ¬ Touches s.array below := fun ht => hbare.mp ht (hb hroom hempty)
        rw [hshown hnot]
        exact hall

end Shared

end Group

mutual

theorem recurseConfig_walk {h h' : Arrays GoString} {s : Slice} {cap : Nat} {p : List GoString}
    {key : GoString} {es : RawEntries} (group : ConfigGroup) (hs : s.In h cap)
    (hread : s.read h = p ++ [key]) (hd : group.Distinct)
    (hok : recurseConfig h s group = .ok (h', es)) :
    ∃ own below, es = own :: below ∧ GroupWalk h s cap p key group h' own below := by
  match group with
  | .nil =>
    obtain ⟨_, _, hok⟩ := bind_ok.mp hok
    obtain ⟨_, _, hok⟩ := bind_ok.mp hok
    cases hok
  | .mk version modPolicy groups values policies =>
    obtain ⟨key', hkey, hok⟩ := bind_ok.mp hok
    obtain ⟨own, hown, hok⟩ := bind_ok.mp hok
    obtain ⟨⟨h₁, below⟩, hbelow, hok⟩ := bind_ok.mp hok
    obtain ⟨ofValues, hvalues, hok⟩ := bind_ok.mp hok
    obtain ⟨ofPolicies, hpolicies, hok⟩ := bind_ok.mp hok
    cases hok
    have hlen : (p ++ [key]).length = s.len := hread ▸ length_read hs
    have hkey' : key' = key := by
      rw [index_eq_ok, hread, ← hlen] at hkey
      simpa using hkey.symm
    subst hkey'
    obtain ⟨hnd, -, -, hd⟩ := hd
    have hw := recurseGroups_walk groups hs hread hnd hd hbelow
    exact ⟨own, _, rfl, hw.toGroup hs hread hown hvalues hpolicies⟩

theorem recurseGroups_walk {h h' : Arrays GoString} {s : Slice} {cap : Nat} {p : List GoString}
    {es : RawEntries} (groups : List (GoString × ConfigGroup)) (hs : s.In h cap)
    (hread : s.read h = p) (hnd : (groups.map (·.1)).Nodup) (hd : DistinctGroups groups)
    (hok : recurseGroups h s groups = .ok (h', es)) : GroupsWalk h s cap p groups h' es := by
  match groups with
  | [] =>
    cases hok
    refine ⟨Extends.refl .., rfl, by simp [Located], by simp [Touches], by simp, ?_⟩
    simp [shown, entriesOfGroups, PathsKeptGroups]
  | (key, group) :: rest =>
    obtain ⟨⟨h₁, below⟩, hbelow, hok⟩ := bind_ok.mp hok
    obtain ⟨⟨h₂, behind⟩, hbehind, hok⟩ := bind_ok.mp hok
    cases hok
    obtain ⟨hd, hdrest⟩ := hd
    have hndrest := (nodup_cons.mp hnd).2
    by_cases hroom : s.len < cap
    · obtain ⟨-, hnext, hreadnext, -, hext⟩ := append_shared hs hroom key
      rw [hread] at hreadnext
      obtain ⟨own, below, rfl, hw⟩ := recurseConfig_walk group hnext hreadnext hd hbelow
      obtain ⟨hin, hread'⟩ := hs.extends (hw.ext_parent hs)
      have hrest := recurseGroups_walk rest hin (hread'.trans hread) hndrest hdrest hbehind
      refine hw.cons_shared hs hread hroom hrest ?_ (nodup_cons.mp hnd).1
      rintro rfl
      cases hbehind
      rfl
    · obtain ⟨hs₂, hnext, hreadnext, hlen, hsame⟩ := append_full hs hroom key
      rw [hread] at hreadnext
      obtain ⟨own, below, rfl, hw⟩ := recurseConfig_walk group hnext hreadnext hd hbelow
      obtain ⟨hin, hread'⟩ := hs.extends (hw.ext_parent hs)
      have hrest := recurseGroups_walk rest hin (hread'.trans hread) hndrest hdrest hbehind
      exact hw.cons_full hs hroom hrest

end

theorem rootSlice_in : Slice.In ⟨0, 1⟩ rootArrays 1 := ⟨⟨[rootGroupKey], rfl, le_refl 1⟩, le_refl 1⟩

theorem rootSlice_read : Slice.read rootArrays ⟨0, 1⟩ = [] ++ [rootGroupKey] := rfl

theorem entries_ext {es : List (GoString × Comparable)}
    (hsame : es.map (fun e => (e.1, e.2.element, e.2.key)) =
      qs.map (fun e => (e.1, e.2.element, e.2.key)))
    (hpath : es.map (·.2.path) = qs.map (·.2.path)) : es = qs := by
  have hzip := congrArg₂ zip hsame hpath
  rw [zip_map', zip_map'] at hzip
  refine map_injective_iff.mpr ?_ hzip
  rintro ⟨k, e, key, path⟩ ⟨k', e', key', path'⟩ heq
  obtain ⟨⟨rfl, rfl, rfl⟩, rfl⟩ := heq
  rfl

theorem mapEntries_eq_ok {group : ConfigGroup} {es : List (GoString × Comparable)}
    (hok : mapEntries group = .ok es) (hne : group ≠ .nil) :
    ∃ h raw, recurseConfig rootArrays ⟨0, 1⟩ group = .ok (h, raw) ∧
      es = raw.map fun e => (e.1, e.2.resolve h) := by
  match group with
  | .nil => exact absurd rfl hne
  | .mk version modPolicy groups values policies =>
    rw [mapEntries] at hok
    · obtain ⟨⟨h, raw⟩, hraw, hok⟩ := bind_ok.mp hok
      exact ⟨h, raw, hraw, (ok.inj hok).symm⟩
    · exact hne

/-- Apart from their paths, the entries are the intended ones. -/
theorem mapEntries_same {group : ConfigGroup} {es : List (GoString × Comparable)}
    (hd : group.Distinct) (hok : mapEntries group = .ok es) :
    es.map (fun e => (e.1, e.2.element, e.2.key)) =
      (entriesAt [] rootGroupKey group).map (fun e => (e.1, e.2.element, e.2.key)) := by
  by_cases hne : group = .nil
  · subst hne
    cases hok
    rfl
  · obtain ⟨h, raw, hraw, rfl⟩ := mapEntries_eq_ok hok hne
    obtain ⟨own, below, rfl, hw⟩ := recurseConfig_walk group rootSlice_in rootSlice_read hd hraw
    rw [map_map]
    exact hw.same

/-- Every comparable of `MapConfig` has its own group's path exactly if no group has room behind its
path in which a subgroup but the last shares it. -/
theorem mapEntries_eq_iff {group : ConfigGroup} {es : List (GoString × Comparable)}
    (hd : group.Distinct) (hok : mapEntries group = .ok es) :
    es = entriesAt [] rootGroupKey group ↔ PathsKept 1 1 group := by
  have hsame := mapEntries_same hd hok
  by_cases hne : group = .nil
  · subst hne
    cases hok
    exact ⟨fun _ => trivial, fun _ => rfl⟩
  · obtain ⟨h, raw, hraw, rfl⟩ := mapEntries_eq_ok hok hne
    obtain ⟨own, below, rfl, hw⟩ := recurseConfig_walk group rootSlice_in rootSlice_read hd hraw
    rw [← hw.kept]
    constructor
    · intro heq
      rw [← heq, map_map]
      rfl
    · intro hshown
      refine entries_ext hsame ?_
      rw [map_map]
      exact hshown

end FabricOev.Config
