import FabricOev.Config.Rebuild

/-!
# Which changes of a configuration are authorised

What an accepted update has passed, and what it can change. An element of the current map in the
delta set has the next version and its policy was satisfied; a key not in the current map has
version 0. From a map that agrees with the tree, every difference between the old tree and the new
one is then authorised.
-/

namespace FabricOev.Config

open Go Lib Lib.FinMap Policy List Result Option Std.ExtTreeMap

/-! ## What an accepted update has passed -/

variable {m : ConfigMap} {k : GoString} {group : ConfigGroup} {c : Comparable} {e : Element}

theorem forM_toList_eq_ok {f : GoString × Comparable → Result Unit} :
    m.toList.forM f = .ok () ↔ ∀ k v, m[k]? = some v → f (k, v) = .ok () := by
  rw [forM_eq_ok]
  constructor
  · intro h k v hv
    exact h _ (mem_toList_iff_getElem?_eq_some.mpr hv)
  · rintro h ⟨k, v⟩ hmem
    exact h k v (mem_toList_iff_getElem?_eq_some.mp hmem)

theorem verifyReadSet_eq_ok {readSet : ConfigMap} :
    verifyReadSet m readSet = .ok () ↔ ∀ (k : GoString) (v : Comparable), readSet[k]? = some v →
      ∃ c, m[k]? = some c ∧ c.version = v.version := by
  rw [verifyReadSet, forM_toList_eq_ok]
  refine forall_congr' fun k => forall_congr' fun v => imp_congr_right fun _ => ?_
  dsimp only
  split
  · rename_i hnone
    simp [hnone, fail]
  · rename_i c hc
    simp only [hc, some.injEq, exists_eq_left']
    split
    · rename_i hne
      simp [hne, fail]
    · rename_i heq
      simpa using heq

def Permitted (policyManager : PolicyManager) (m : ConfigMap) (signedData : List SignedData)
    (k : GoString) (v : Comparable) : Prop :=
  match m[k]? with
  | none => v.version = 0
  | some existing => v.version = existing.version + 1 ∧
      ∃ policy, policyForItem policyManager existing = .ok (some policy) ∧ policy signedData = true

theorem verifyDeltaSet_eq_ok {policyManager : PolicyManager} {deltaSet : ConfigMap}
    {signedData : List SignedData} :
    verifyDeltaSet policyManager m deltaSet signedData = .ok () ↔
      deltaSet.isEmpty = false ∧ ∀ (k : GoString) (v : Comparable), deltaSet[k]? = some v →
        Permitted policyManager m signedData k v := by
  rw [verifyDeltaSet]
  split
  · rename_i hempty
    simp [hempty, errorf, fail]
  · rename_i hne
    rw [forM_toList_eq_ok]
    simp only [Bool.not_eq_true] at hne
    rw [hne]
    simp only [true_and]
    refine forall_congr' fun k => forall_congr' fun v => imp_congr_right fun _ => ?_
    unfold Permitted
    cases m[k]? with
    | none => by_cases hv : v.version = 0 <;> simp [hv, fail]
    | some existing =>
      by_cases hv : v.version = existing.version + 1
      · simp only [hv, ne_eq, not_true_eq_false, if_false, true_and]
        rw [bind_ok]
        constructor
        · rintro ⟨found, hfound, hok⟩
          cases found with
          | none => cases hok
          | some policy =>
            refine ⟨policy, hfound, ?_⟩
            by_contra hnot
            simp [hnot, fail] at hok
        · rintro ⟨policy, hfound, hsat⟩
          exact ⟨some policy, hfound, by simp [hsat]⟩
      · simp [hv, fail]

/-- The entries of the write set that the read set does not have at their version. -/
theorem getElem?_deltaSet {readSet writeSet : ConfigMap} {v : Comparable} :
    (computeDeltaSet readSet writeSet)[k]? = some v ↔
      writeSet[k]? = some v ∧ ∀ r : Comparable, readSet[k]? = some r → r.version ≠ v.version := by
  rw [computeDeltaSet, Std.ExtTreeMap.getElem?_filter, pfilter_eq_some_iff]
  simp only [getKey_eq, exists_prop]
  refine and_congr_right fun _ => ?_
  cases readSet[k]? with
  | none | some r => simp

theorem getElem?_updateResult (m deltaSet : ConfigMap) (k : GoString) :
    (computeUpdateResult m deltaSet)[k]? = (deltaSet[k]?).or m[k]? := by
  rw [computeUpdateResult, getElem?_overlay]
  cases deltaSet[k]? <;> rfl

/-- What an update has passed that is accepted with these read and write sets. -/
structure Accepted (policyManager : PolicyManager) (current : ConfigSet) (env : UpdateEnvelope)
    (configUpdate : ConfigUpdate) (signedData : List SignedData) (readSet writeSet : ConfigMap) :
    Prop where
  decoded : env.configUpdate = .ok configUpdate
  channel : configUpdate.channelId = current.channelID
  mapsRead : mapConfig configUpdate.readSet = .ok readSet
  mapsWrite : mapConfig configUpdate.writeSet = .ok writeSet
  signed : env.signedData = .ok signedData
  reads : ∀ (k : GoString) (v : Comparable), readSet[k]? = some v →
    ∃ c, current.configMap[k]? = some c ∧ c.version = v.version
  nonempty : (computeDeltaSet readSet writeSet).isEmpty = false
  permitted : ∀ (k : GoString) (v : Comparable), (computeDeltaSet readSet writeSet)[k]? = some v →
    Permitted policyManager current.configMap signedData k v

/-- A key of the write set is in the delta set or in the current map: the last check never fails. -/
theorem verifyFull_eq_ok {readSet writeSet : ConfigMap}
    (hreads : ∀ (k : GoString) (v : Comparable), readSet[k]? = some v →
      ∃ c, m[k]? = some c ∧ c.version = v.version) :
    verifyFullProposedConfig writeSet
      (computeUpdateResult m (computeDeltaSet readSet writeSet)) = .ok () := by
  rw [verifyFullProposedConfig, forM_toList_eq_ok]
  intro k v hv
  have hfound : ((computeUpdateResult m (computeDeltaSet readSet writeSet))[k]?).isSome := by
    rw [getElem?_updateResult]
    cases hd : (computeDeltaSet readSet writeSet)[k]? with
    | some d => rfl
    | none =>
      have hread : ∃ r, readSet[k]? = some r := by
        by_contra hnone
        have := getElem?_deltaSet.mpr ⟨hv, fun r hr => absurd ⟨r, hr⟩ hnone⟩
        rw [hd] at this
        cases this
      obtain ⟨r, hr⟩ := hread
      obtain ⟨c, hc, -⟩ := hreads k r hr
      rw [hc]
      rfl
  dsimp only
  rw [if_neg (by simpa using hfound)]

theorem authorizeUpdate_eq_ok {policyManager : PolicyManager} {current : ConfigSet}
    {env : UpdateEnvelope} :
    authorizeUpdate policyManager current env = .ok m ↔ ∃ configUpdate signedData readSet writeSet,
        Accepted policyManager current env configUpdate signedData readSet writeSet ∧
          m = computeUpdateResult current.configMap (computeDeltaSet readSet writeSet) := by
  constructor
  · intro h
    obtain ⟨u, hu, h⟩ := bind_ok.mp h
    split at h
    · cases h
    · rename_i hchannel
      obtain ⟨rs, hrs, h⟩ := bind_ok.mp h
      obtain ⟨⟨⟩, hreads, h⟩ := bind_ok.mp h
      obtain ⟨ws, hws, h⟩ := bind_ok.mp h
      obtain ⟨sd, hsd, h⟩ := bind_ok.mp h
      obtain ⟨⟨⟩, hdelta, h⟩ := bind_ok.mp h
      obtain ⟨⟨⟩, _, h⟩ := bind_ok.mp h
      cases h
      obtain ⟨hne, hpermitted⟩ := verifyDeltaSet_eq_ok.mp (wrap_eq_ok.mp hdelta)
      exact ⟨u, sd, rs, ws, ⟨hu, not_not.mp hchannel, wrap_eq_ok.mp hrs, wrap_eq_ok.mp hws, hsd,
        verifyReadSet_eq_ok.mp (wrap_eq_ok.mp hreads), hne, hpermitted⟩, rfl⟩
  · rintro ⟨u, sd, rs, ws, h, rfl⟩
    refine bind_ok.mpr ⟨u, h.decoded, ?_⟩
    rw [if_neg (not_not.mpr h.channel)]
    refine bind_ok.mpr ⟨rs, wrap_eq_ok.mpr h.mapsRead, ?_⟩
    refine bind_ok.mpr ⟨(), wrap_eq_ok.mpr (verifyReadSet_eq_ok.mpr h.reads), ?_⟩
    refine bind_ok.mpr ⟨ws, wrap_eq_ok.mpr h.mapsWrite, ?_⟩
    refine bind_ok.mpr ⟨sd, h.signed, ?_⟩
    refine bind_ok.mpr ⟨(), wrap_eq_ok.mpr
      (verifyDeltaSet_eq_ok.mpr ⟨h.nonempty, h.permitted⟩), ?_⟩
    exact bind_ok.mpr ⟨(), wrap_eq_ok.mpr (verifyFull_eq_ok h.reads), rfl⟩

/-- The map has every element of the tree. It may have more, and paths may be wrong. -/
structure Sound (current : ConfigSet) : Prop where
  distinct : current.channelGroup.Distinct
  full : current.channelGroup.full = true
  tidy : Tidy current.configMap
  represents : Represents current.configMap [] current.channelGroup

theorem entry_of_pathsKept (hd : group.Distinct) (hok : mapConfig group = .ok m)
    (hkept : PathsKept 1 1 group) (hc : m[k]? = some c) :
    (k, c) ∈ entriesAt [] rootGroupKey group := by
  obtain ⟨es, hes, rfl⟩ := mapConfig_eq_ok hok
  rw [← (mapEntries_eq_iff hd hes).mpr hkept]
  rcases getElem?_insertAll_cases hc with hc | hc
  · simp at hc
  · exact hc

theorem path_of_pathsKept (hd : group.Distinct) (hok : mapConfig group = .ok m)
    (hkept : PathsKept 1 1 group) {p : List GoString} {item : Item}
    (hplain : ∀ k ∈ p ++ item.own, Plain k) (hc : m[keyOf p item]? = some c) :
    c = comparableAt (rootGroupKey :: p ++ item.own) c.element := by
  have hmem := entry_of_pathsKept hd hok hkept hc
  rcases find_of_mem_entriesAt group hd hmem with hunset | ⟨p', item', hfind, heq⟩
  · exact absurd hunset (not_unset_keyOf p item c)
  · obtain ⟨hkey, hentry⟩ := Prod.mk.inj heq
    obtain ⟨rfl, rfl⟩ := keyOf_inj hplain ((mapConfig_mapped hd hok).plain hfind) hkey
    exact hentry

def Element.kind : Element → Option Kind
  | .group _ => some .group
  | .value _ => some .value
  | .policy _ => some .policy
  | .unset => none

theorem kind_of_find {p : List GoString} {item : Item} (h : group.find p item = some e) :
    e.kind = some item.kind := by
  rw [ConfigGroup.find_eq] at h
  obtain ⟨g, -, h⟩ := bind_eq_some_iff.mp h
  cases item with
  | self =>
    cases g with
    | nil => cases h
    | mk version modPolicy groups values policies =>
      cases h
      rfl
  | value k =>
    obtain ⟨v, rfl⟩ := here_value h
    rfl
  | policy k =>
    obtain ⟨v, rfl⟩ := here_policy h
    rfl

/-- With its own path an element's policy is looked up in its group's manager, except in the root
group. -/
theorem policyForItem_comparableAt (policyManager : PolicyManager) {p : List GoString} {item : Item}
    (hkind : e.kind = some item.kind) :
    policyForItem policyManager (comparableAt (rootGroupKey :: p ++ item.own) e) =
      match listing p item with
      | none => panicWith .indexOutOfRange
      | some _ => .ok (policyManager.policy p e.modPolicy) := by
  cases item with
  | self =>
    cases e with
    | group node =>
      cases p using reverseRecOn with
      | nil => rfl
      | append_singleton q k =>
        have hfull : rootGroupKey :: (q ++ [k]) ++ Item.self.own = (rootGroupKey :: q) ++ [k] := by
          simp [Item.own]
        have hlisting : listing (q ++ [k]) .self = some (q, .group, k) := by simp [listing]
        rw [hfull, comparableAt, getLast?_concat, dropLast_concat, hlisting]
        rfl
    | value v | policy v | unset => cases hkind
  | value k =>
    cases e with
    | group node => cases hkind
    | value v =>
      rw [Item.own, comparableAt, getLast?_concat, dropLast_concat]
      rfl
    | policy v | unset => cases hkind
  | policy k =>
    cases e with
    | group node | value v => cases hkind
    | policy v =>
      rw [Item.own, comparableAt, getLast?_concat, dropLast_concat]
      rfl
    | unset => cases hkind

/-! ## The policy of the element's own group -/

/-- Every comparable of `MapConfig` has the path of its group in the end, and below the root group
its policy is looked up in the manager of that group. -/
structure AsksOwnGroup (group : ConfigGroup) (entries : List (GoString × Comparable)) : Prop where
  paths : entries = entriesAt [] rootGroupKey group
  policies : ∀ (policyManager : PolicyManager) (p : List GoString) (item : Item) (e : Element),
    group.find p item = some e → (listing p item).isSome →
    ∃ c, (insertAll ∅ entries : ConfigMap)[keyOf p item]? = some c ∧
      policyForItem policyManager c = .ok (policyManager.policy p e.modPolicy)

/-- Whatever the order in which the maps are visited, the paths are right exactly when no path
shares its array with that of a sibling that is visited later. -/
theorem asksOwnGroup_iff {group : ConfigGroup} {entries : List (GoString × Comparable)}
    (hd : group.Distinct) (h : mapEntries group = .ok entries) :
    AsksOwnGroup group entries ↔ PathsKept 1 1 group := by
  have hok : mapConfig group = .ok (insertAll ∅ entries) := by
    rw [mapConfig, h]
    rfl
  constructor
  · intro hasks
    exact (mapEntries_eq_iff hd h).mp hasks.paths
  · intro hkept
    refine ⟨(mapEntries_eq_iff hd h).mpr hkept, ?_⟩
    intro policyManager p item e hfind hlisted
    have hmapped := mapConfig_mapped hd hok
    obtain ⟨c, hc, rfl⟩ := hmapped.found hfind
    refine ⟨c, hc, ?_⟩
    obtain ⟨l, hl⟩ := isSome_iff_exists.mp hlisted
    rw [path_of_pathsKept hd hok hkept (hmapped.plain hfind) hc,
      policyForItem_comparableAt policyManager (kind_of_find hfind), hl]
    rfl

def admins : GoString := str "Admins"

def consortiums : GoString := str "Consortiums"

def sampleConsortium : GoString := str "SampleConsortium"

def mspKey : GoString := str "MSP"

def application : GoString := str "Application"

def organisations (orgs : List GoString) : ConfigGroup :=
  .mk 0 admins (orgs.map fun org => (org, .mk 0 admins [] [(mspKey, some ⟨0, some [], admins⟩)] []))
    [] []

def consortiumOf (orgs : List GoString) : ConfigGroup :=
  .mk 0 admins [(consortiums, .mk 0 admins [(sampleConsortium, organisations orgs)] [] [])] [] []

def applicationOf (orgs : List GoString) : ConfigGroup :=
  .mk 0 admins [(application, organisations orgs)] [] []

/-- The organisations of a channel are asked for their own elements. -/
theorem organisations_asked :
    ∃ entries, mapEntries (applicationOf [str "Org1", str "Org2"]) = .ok entries ∧
      AsksOwnGroup (applicationOf [str "Org1", str "Org2"]) entries := by
  have hrun : (mapEntries (applicationOf [str "Org1", str "Org2"])).toOption.isSome = true := by
    decide +kernel
  obtain ⟨entries, hentries⟩ := isSome_iff_exists.mp hrun
  have hok := toOption_eq_some hentries
  have hne : str "Org1" ≠ str "Org2" := by decide
  refine ⟨entries, hok, (asksOwnGroup_iff ?_ hok).mpr ?_⟩
  · simp [applicationOf, organisations, ConfigGroup.Distinct, DistinctGroups, hne]
  · have hcap : growCap 1 = 2 := rfl
    simp [applicationOf, organisations, PathsKept, PathsKeptGroups, nextCap, hcap]

/-- In a consortium of two, the definition of the first one's MSP is guarded by the policies of
the second one. -/
theorem sibling_is_asked :
    (consortiumOf [str "Org1", str "Org2"]).Distinct ∧
      ∃ m c, mapConfig (consortiumOf [str "Org1", str "Org2"]) = .ok m ∧
        m[keyOf [consortiums, sampleConsortium, str "Org1"] (.value mspKey)]? = some c ∧
        c.path = [rootGroupKey, consortiums, sampleConsortium, str "Org2"] ∧
        ∀ policyManager, policyForItem policyManager c =
          .ok (policyManager.policy [consortiums, sampleConsortium, str "Org2"] admins) := by
  have hrun : ((mapConfig (consortiumOf [str "Org1", str "Org2"])).toOption.bind fun m =>
      m[keyOf [consortiums, sampleConsortium, str "Org1"] (.value mspKey)]?) =
      some ⟨.value ⟨0, some [], admins⟩, mspKey,
        [rootGroupKey, consortiums, sampleConsortium, str "Org2"]⟩ := by
    decide +kernel
  obtain ⟨m, hm, hc⟩ := bind_eq_some_iff.mp hrun
  refine ⟨?_, m, _, toOption_eq_some hm, hc, rfl, fun _ => rfl⟩
  have hne : str "Org1" ≠ str "Org2" := by decide
  simp [consortiumOf, organisations, ConfigGroup.Distinct, DistinctGroups, hne]

theorem ne_add_one (v : UInt64) : v ≠ v + 1 := by
  intro h
  have h' := congrArg UInt64.toNat h
  have := v.toNat_lt
  simp at h'
  omega

/-- What the map of a tree has under the key of a place is what the tree has there. -/
theorem Mapped.elementAt_eq (hm : Mapped m group) (hplain : ∀ k ∈ p ++ item.own, Plain k) :
    elementAt m p item = group.find p item := by
  cases hfind : group.find p item with
  | some e =>
    obtain ⟨c, hc, helem⟩ := hm.found hfind
    rw [elementAt, hc]
    exact congrArg some helem
  | none =>
    cases hc : m[keyOf p item]? with
    | none =>
      rw [elementAt, hc]
      rfl
    | some c =>
      rcases hm.only hc with hunset | ⟨p', item', hfind', hkey⟩
      · exact absurd hunset (not_unset_keyOf p item c)
      · obtain ⟨rfl, rfl⟩ := keyOf_inj hplain (hm.plain hfind') hkey
        rw [hfind] at hfind'
        cases hfind'

/-- What an update changes: the places of the write set that the read set does not have at their
version. -/
def InDelta (configUpdate : ConfigUpdate) (p : List GoString) (item : Item) (e : Element) : Prop :=
  configUpdate.writeSet.find p item = some e ∧
    ∀ r, configUpdate.readSet.find p item = some r → r.version ≠ e.version

section Authorised

variable (policyManager : PolicyManager) (signedData : List SignedData) (old new : ConfigGroup)

/-- An element of both trees whose version rose by one, with its policy satisfied. -/
def Raised (p : List GoString) (item : Item) : Prop :=
  ∃ e e' policy, old.find p item = some e ∧ new.find p item = some e' ∧
    e'.version = e.version + 1 ∧ policyManager.policy p e.modPolicy = some policy ∧
    policy signedData = true

def Moved (p : List GoString) (item : Item) : Prop :=
  (old.find p item).isSome ≠ (new.find p item).isSome

/-- Unchanged, or raised, or added at version 0 to or removed from a group that was raised, added or
removed. -/
def Authorised : Prop :=
  ∀ p item, Option.Rel Element.Same (old.find p item) (new.find p item) ∨
    Raised policyManager signedData old new p item ∨
    (Moved old new p item ∧ (∀ e', new.find p item = some e' → e'.version = 0) ∧
      ∃ q kind k, listing p item = some (q, kind, k) ∧
        (Raised policyManager signedData old new q .self ∨ Moved old new q .self))

/-- For every changed element that stays in the tree, the policy of its own group is satisfied, and
what the tree did not have comes at version 0. -/
structure AsksOwners (configUpdate : ConfigUpdate) : Prop where
  satisfied : ∀ p item e w, old.find p item = some e → InDelta configUpdate p item w →
    (new.find p item).isSome →
    ∃ policy, policyManager.policy p e.modPolicy = some policy ∧ policy signedData = true
  added : ∀ p item e, old.find p item = none → new.find p item = some e → e.version = 0

variable {policyManager signedData old new} {p : List GoString} {item : Item} {e : Element}

theorem Authorised.version_of_added (h : Authorised policyManager signedData old new)
    (hold : old.find p item = none) (hnew : new.find p item = some e) : e.version = 0 := by
  rcases h p item with hsame | ⟨e', _, _, he', _⟩ | ⟨-, hzero, -⟩
  · rw [hold, hnew] at hsame
    cases hsame
  · rw [hold] at he'
    cases he'
  · exact hzero e hnew

end Authorised

section Update

variable {policyManager : PolicyManager} {current : ConfigSet} {env : UpdateEnvelope}
  {configUpdate : ConfigUpdate} {signedData : List SignedData} {readSet writeSet : ConfigMap}

abbrev updated (current : ConfigSet) (readSet writeSet : ConfigMap) : ConfigMap :=
  computeUpdateResult current.configMap (computeDeltaSet readSet writeSet)

theorem Accepted.tidy (h : Accepted policyManager current env configUpdate signedData readSet writeSet)
    (ht : Tidy current.configMap) (hd : configUpdate.writeSet.Distinct) :
    Tidy (updated current readSet writeSet) := by
  intro k c node hc helem
  rw [updated, getElem?_updateResult] at hc
  cases hdelta : (computeDeltaSet readSet writeSet)[k]? with
  | none =>
    rw [hdelta] at hc
    exact ht k c node hc helem
  | some v =>
    rw [hdelta] at hc
    cases hc
    exact (mapConfig_mapped hd h.mapsWrite).tidy hd k c node (getElem?_deltaSet.mp hdelta).1
      helem

variable {group : ConfigGroup}

theorem Tidy.members (ht : Tidy m) (hrep : Represents m [] group) (p : List GoString)
    (node : GroupNode) (hnode : group.find p .self = some (.group node)) :
    ∀ k ∈ node.members, validConfigID k = true := by
  intro k hk
  obtain ⟨e', he', hsame⟩ := hrep p .self _ hnode
  obtain ⟨n, rfl, hn⟩ := hsame.group_right
  refine (ht.elementAt he').valid k ?_
  have hperm : n.members.Perm node.members := (hn.groups.append hn.values).append hn.policies
  exact hperm.mem_iff.mpr hk

variable {p : List GoString} {item : Item} {e : Element}

theorem Tidy.plain (ht : Tidy m) (hrep : Represents m [] group) (h : group.find p item = some e) :
    ∀ k ∈ p ++ item.own, Plain k :=
  fun k hk => plain_of_valid (valid_of_members (ht.members hrep) h k hk)

variable {new : ConfigGroup} {e' : Element}

theorem listing_eq_none (h : listing p item = none) : p = [] ∧ item = .self := by
  cases item with
  | self => exact ⟨by simpa [listing] using h, rfl⟩
  | value k | policy k => cases h

theorem listing_of_moved {old : ConfigGroup} (hold : old.full = true) (hnew : new.full = true)
    (h : Moved old new p item) :
    ∃ q kind k, listing p item = some (q, kind, k) := by
  cases hl : listing p item with
  | some l => exact ⟨l.1, l.2.1, l.2.2, rfl⟩
  | none =>
    obtain ⟨rfl, rfl⟩ := listing_eq_none hl
    exact absurd ((find_self_isSome hold).trans (find_self_isSome hnew).symm) h

theorem Accepted.delta_iff
    (h : Accepted policyManager current env configUpdate signedData readSet writeSet)
    (hreads : configUpdate.readSet.Distinct) (hwrites : configUpdate.writeSet.Distinct)
    (hplain : ∀ k ∈ p ++ item.own, Plain k) :
    elementAt (computeDeltaSet readSet writeSet) p item = some e ↔ InDelta configUpdate p item e := by
  rw [InDelta, ← (mapConfig_mapped hreads h.mapsRead).elementAt_eq hplain,
    ← (mapConfig_mapped hwrites h.mapsWrite).elementAt_eq hplain]
  constructor
  · intro h
    obtain ⟨v, hv, rfl⟩ := map_eq_some_iff.mp h
    obtain ⟨hwrite, hread⟩ := getElem?_deltaSet.mp hv
    refine ⟨by rw [elementAt, hwrite]; rfl, ?_⟩
    intro r hr
    obtain ⟨c, hc, rfl⟩ := map_eq_some_iff.mp hr
    exact hread c hc
  · intro h
    obtain ⟨hwrite, hread⟩ := h
    obtain ⟨v, hv, rfl⟩ := map_eq_some_iff.mp hwrite
    have hdelta := getElem?_deltaSet.mpr ⟨hv, fun r hr => hread r.element (by
      rw [elementAt, hr]; rfl)⟩
    rw [elementAt, hdelta]
    rfl

variable (hs : Sound current)
  (h : Accepted policyManager current env configUpdate signedData readSet writeSet)
  (hreads : configUpdate.readSet.Distinct) (hwrites : configUpdate.writeSet.Distinct)
include hs h hreads hwrites

theorem Sound.delta_iff (hold : current.channelGroup.find p item = some e) :
    (∃ v, (computeDeltaSet readSet writeSet)[keyOf p item]? = some v ∧ v.element = e') ↔
      InDelta configUpdate p item e' :=
  map_eq_some_iff.symm.trans
    (h.delta_iff hreads hwrites (hs.tidy.plain hs.represents hold))

variable (hrep : Represents (updated current readSet writeSet) [] new)
include hrep

/-- An element of both trees has the next version if it was changed, and is the same if not. -/
theorem Sound.version_of_kept (hold : current.channelGroup.find p item = some e)
    (hnew : new.find p item = some e') :
    (∀ w, InDelta configUpdate p item w → e'.version = e.version + 1) ∧
      ((∀ w, ¬ InDelta configUpdate p item w) → e.Same e') := by
  obtain ⟨x, hx, hxe⟩ := hs.represents p item e hold
  obtain ⟨c, hc, rfl⟩ := map_eq_some_iff.mp hx
  obtain ⟨y, hy, hye⟩ := hrep p item e' hnew
  obtain ⟨d, hd, rfl⟩ := map_eq_some_iff.mp hy
  rw [nil_append] at hc hd
  rw [updated, getElem?_updateResult] at hd
  constructor
  · intro w hin
    obtain ⟨v, hv, -⟩ := (hs.delta_iff h hreads hwrites hold).mpr hin
    rw [hv] at hd
    cases hd
    have hpermitted := h.permitted _ _ hv
    rw [Permitted, hc] at hpermitted
    rw [← hye.version_eq, ← hxe.version_eq]
    exact hpermitted.1
  · intro hout
    cases hv : (computeDeltaSet readSet writeSet)[keyOf p item]? with
    | none =>
      rw [hv, none_or, hc] at hd
      cases hd
      exact hxe.symm.trans hye
    | some v => exact absurd ((hs.delta_iff h hreads hwrites hold).mp ⟨v, hv, rfl⟩) (hout _)

theorem AsksOwners.same_or_raised
    (ho : AsksOwners policyManager signedData current.channelGroup new configUpdate)
    (hold : current.channelGroup.find p item = some e) (hnew : new.find p item = some e') :
    e.Same e' ∨ Raised policyManager signedData current.channelGroup new p item := by
  obtain ⟨hnext, hsame⟩ := hs.version_of_kept h hreads hwrites hrep hold hnew
  by_cases hin : ∃ w, InDelta configUpdate p item w
  · obtain ⟨w, hin⟩ := hin
    obtain ⟨policy, hpolicy, hsat⟩ := ho.satisfied p item e w hold hin (by rw [hnew]; rfl)
    exact .inr ⟨e, e', policy, hold, hnew, hnext w hin, hpolicy, hsat⟩
  · exact .inl (hsame (not_exists.mp hin))

variable (hfull : new.full = true)
include hfull

/-- A group with another key set was raised itself. -/
theorem AsksOwners.group_changed
    (ho : AsksOwners policyManager signedData current.channelGroup new configUpdate)
    {q : List GoString} {kind : Kind} (hl : listing p item = some (q, kind, k))
    (hmoved : Moved current.channelGroup new p item) :
    Raised policyManager signedData current.channelGroup new q .self ∨
      Moved current.channelGroup new q .self := by
  by_cases hq : (current.channelGroup.find q .self).isSome = (new.find q .self).isSome
  · left
    have hold := find_isSome_listed hs.full hl
    have hnew := find_isSome_listed hfull hl
    cases hcurrent : current.channelGroup.find q .self with
    | none =>
      -- the group is in neither tree, and so the element is in neither
      rw [hcurrent, eq_comm, isSome_none, isSome_eq_false_iff, isNone_iff_eq_none] at hq
      rw [hcurrent] at hold
      rw [hq] at hnew
      exact absurd (Bool.eq_iff_iff.mpr (hold.trans (by simp [hnew]))) hmoved
    | some e =>
      rw [hcurrent, isSome_some, eq_comm, isSome_iff_exists] at hq
      obtain ⟨e', hn⟩ := hq
      obtain hsame | hraised := ho.same_or_raised hs h hreads hwrites hrep hcurrent hn
      · refine absurd (Bool.eq_iff_iff.mpr ?_) hmoved
        rw [hold, hnew, hcurrent, hn]
        obtain rfl | ⟨n, n', rfl, rfl, hsame⟩ := hsame.cases
        · exact Iff.rfl
        · simp [(hsame.keys kind).mem_iff]
      · exact hraised
  · exact .inr hq

/-- What an accepted update does is authorised exactly when it asks the owners. -/
theorem Sound.authorised_iff :
    Authorised policyManager signedData current.channelGroup new ↔
      AsksOwners policyManager signedData current.channelGroup new configUpdate := by
  constructor
  · intro ha
    refine ⟨?_, fun p item e hold hnew => ha.version_of_added hold hnew⟩
    intro p item e w hold hin hfound
    obtain ⟨e', hnew⟩ := isSome_iff_exists.mp hfound
    have hnext := (hs.version_of_kept h hreads hwrites hrep hold hnew).1 w hin
    rcases ha p item with hsame | ⟨_, _, policy, hold', -, -, hpolicy, hsat⟩ | ⟨hmoved, -⟩
    · rw [hold, hnew] at hsame
      cases hsame with
      | some hsame => exact absurd (hsame.version_eq.trans hnext) (ne_add_one _)
    · cases hold.symm.trans hold'
      exact ⟨policy, hpolicy, hsat⟩
    · exact absurd (by rw [hold, hnew]; rfl) hmoved
  · intro ho p item
    have hlisted : Moved current.channelGroup new p item →
        ∃ q kind k, listing p item = some (q, kind, k) ∧
          (Raised policyManager signedData current.channelGroup new q .self ∨
            Moved current.channelGroup new q .self) := by
      intro hm
      obtain ⟨q, kind, k, hl⟩ := listing_of_moved hs.full hfull hm
      exact ⟨q, kind, k, hl, ho.group_changed hs h hreads hwrites hrep hfull hl hm⟩
    cases hold : current.channelGroup.find p item with
    | none =>
      cases hnew : new.find p item with
      | none => exact .inl .none
      | some e' =>
        have hm : Moved current.channelGroup new p item := by simp [Moved, hold, hnew]
        refine .inr (.inr ⟨hm, fun x hx => ?_, hlisted hm⟩)
        exact ho.added p item x hold (hnew.trans hx)
    | some e =>
      cases hnew : new.find p item with
      | none =>
        have hm : Moved current.channelGroup new p item := by simp [Moved, hold, hnew]
        refine .inr (.inr ⟨hm, fun x hx => ?_, hlisted hm⟩)
        cases hx
      | some e' =>
        obtain hsame | hraised := ho.same_or_raised hs h hreads hwrites hrep hold hnew
        · exact .inl (.some hsame)
        · exact .inr (.inl hraised)

end Update

end FabricOev.Config
