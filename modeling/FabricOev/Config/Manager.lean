import FabricOev.Config.Authorization

/-!
# Runs of the configuration manager

The manager starts from a configuration and moves on with each `Apply`. Its map always has the
elements of its tree. What an accepted update does to the tree is authorised when it asks the
policies of the groups it changes and adds nothing but new elements; that some policy is consulted
at all takes an element of the current tree in the delta set. Until the first `Apply`, other calls
rewrite the tree that the manager shows.
-/

namespace FabricOev.Config

open Go Lib Lib.FinMap Policy Result Option Except List Prod

/-! ## What the operations check -/

/-- An update that was accepted, with the tree that the new map gives. -/
structure Proposed (handlers : Handlers) (current : ConfigSet) (env : UpdateEnvelope)
    (configUpdate : ConfigUpdate) (signedData : List SignedData) (readSet writeSet : ConfigMap)
    (new : ConfigGroup) : Prop where
  accepted : Accepted (handlers.policies current.channelGroup) current env configUpdate signedData
    readSet writeSet
  rebuilt : configMapToConfig (updated current readSet writeSet) = .ok new
  processed : processConfig handlers (some current.channelGroup) new = .ok ()

theorem proposeUpdate_eq_ok {handlers : Handlers} {current : ConfigSet}
    {configtx : Result UpdateEnvelope} {result : ConfigEnvelope} :
    proposeConfigUpdate handlers current configtx = .ok result ↔
      ∃ env configUpdate signedData readSet writeSet new, configtx = .ok env ∧
        Proposed handlers current env configUpdate signedData readSet writeSet new ∧
        result = ⟨some ⟨current.sequence + 1, new⟩, configtx⟩ := by
  constructor
  · intro h
    obtain ⟨env, henv, h⟩ := bind_ok.mp h
    obtain ⟨m, hm, h⟩ := bind_ok.mp h
    obtain ⟨new, hnew, h⟩ := bind_ok.mp h
    obtain ⟨⟨⟩, hprocess, h⟩ := bind_ok.mp h
    cases h
    obtain ⟨u, sd, rs, ws, ha, rfl⟩ := authorizeUpdate_eq_ok.mp (wrap_eq_ok.mp hm)
    exact ⟨env, u, sd, rs, ws, new, wrap_eq_ok.mp henv,
      ⟨ha, wrap_eq_ok.mp hnew, wrap_eq_ok.mp hprocess⟩, rfl⟩
  · rintro ⟨env, u, sd, rs, ws, new, rfl, h, rfl⟩
    refine bind_ok.mpr ⟨env, rfl, ?_⟩
    refine bind_ok.mpr ⟨_, wrap_eq_ok.mpr (authorizeUpdate_eq_ok.mpr
      ⟨u, sd, rs, ws, h.accepted, rfl⟩), ?_⟩
    refine bind_ok.mpr ⟨new, wrap_eq_ok.mpr h.rebuilt, ?_⟩
    exact bind_ok.mpr ⟨(), wrap_eq_ok.mpr h.processed, rfl⟩

variable {configEnv : ConfigEnvelope}

theorem apply_eq_ok {handlers : Handlers} {current current' : ConfigSet} :
    apply handlers current (some configEnv) = .ok current' ↔
      ∃ config env configUpdate signedData readSet writeSet new,
        configEnv.config = some config ∧ config.sequence = current.sequence + 1 ∧
        configEnv.lastUpdate = .ok env ∧
        Proposed handlers current env configUpdate signedData readSet writeSet new ∧
        new.deepEqual config.channelGroup = true ∧
        current' = ⟨current.channelID, config.sequence, updated current readSet writeSet,
          config.channelGroup⟩ := by
  obtain ⟨config, lastUpdate⟩ := configEnv
  constructor
  · intro h
    obtain ⟨⟨m, config'⟩, hprepare, hcurrent⟩ := bind_ok.mp h
    cases hcurrent
    clear h
    cases config with
    | none => cases hprepare
    | some config =>
      rw [prepareApply] at hprepare
      split at hprepare
      · cases hprepare
      · rename_i hseq
        obtain ⟨env, henv, h⟩ := bind_ok.mp hprepare
        obtain ⟨m', hm, h⟩ := bind_ok.mp h
        obtain ⟨new, hnew, h⟩ := bind_ok.mp h
        split at h
        · cases h
        · rename_i hequal
          obtain ⟨⟨⟩, hprocess, h⟩ := bind_ok.mp h
          cases h
          obtain ⟨u, sd, rs, ws, ha, rfl⟩ := authorizeUpdate_eq_ok.mp hm
          exact ⟨_, env, u, sd, rs, ws, new, rfl, not_not.mp hseq, henv,
            ⟨ha, wrap_eq_ok.mp hnew, hprocess⟩, by simpa using hequal, rfl⟩
  · rintro ⟨config', env, u, sd, rs, ws, new, hconfig, hseq, henv, h, hequal, rfl⟩
    have hconfig : config = some config' := hconfig
    have henv : lastUpdate = .ok env := henv
    subst hconfig henv
    refine bind_ok.mpr ⟨(updated current rs ws, config'), ?_, rfl⟩
    rw [prepareApply, if_neg (not_not.mpr hseq)]
    refine bind_ok.mpr ⟨env, rfl, ?_⟩
    refine bind_ok.mpr ⟨_, authorizeUpdate_eq_ok.mpr ⟨u, sd, rs, ws, h.accepted, rfl⟩, ?_⟩
    refine bind_ok.mpr ⟨new, wrap_eq_ok.mpr h.rebuilt, ?_⟩
    rw [if_neg (by rw [hequal]; decide)]
    exact bind_ok.mpr ⟨(), h.processed, rfl⟩

variable {group : ConfigGroup} {channelID : GoString} {config : ChannelConfig} {m : ConfigMap}
  {c : Comparable} {signedData : List SignedData} {policyManager : PolicyManager}
  {p : List GoString} {item : Item} {e : Element} {readSet writeSet : ConfigMap}

theorem full_of_processConfig {handlers : Handlers} {committed : Option ConfigGroup}
    (h : processConfig handlers committed group = .ok ()) :
    group.full = true := by
  by_contra hnot
  rw [processConfig, if_neg hnot] at h
  cases h

theorem newManager_eq_ok {handlers : Handlers} {current : ConfigSet} :
    newManager handlers channelID (some config) = .ok current ↔
      validChannelID channelID = true ∧ current.channelID = channelID ∧
        current.sequence = config.sequence ∧ current.channelGroup = config.channelGroup ∧
        mapConfig config.channelGroup = .ok current.configMap ∧
        processConfig handlers none config.channelGroup = .ok () := by
  obtain ⟨sequence, group⟩ := config
  constructor
  · intro h
    cases group with
    | nil => cases h
    | mk version modPolicy groups values policies =>
      unfold newManager at h
      dsimp only at h
      split at h
      · rename_i hchannel
        obtain ⟨m, hm, h⟩ := bind_ok.mp h
        obtain ⟨⟨⟩, hprocess, h⟩ := bind_ok.mp h
        cases h
        exact ⟨hchannel, rfl, rfl, rfl, wrap_eq_ok.mp hm, hprocess⟩
      · cases h
  · obtain ⟨channelID', sequence', m, group'⟩ := current
    rintro ⟨hchannel, rfl, rfl, rfl, hm, hprocess⟩
    cases group' with
    | nil => cases full_of_processConfig hprocess
    | mk version modPolicy groups values policies =>
      rw [newManager, if_pos hchannel]
      · refine bind_ok.mpr ⟨m, wrap_eq_ok.mpr hm, ?_⟩
        exact bind_ok.mpr ⟨(), hprocess, rfl⟩
      · simp

/-- The lists of the trees stand for Go maps: no key twice. -/
def UpdateEnvelope.Distinct (env : UpdateEnvelope) : Prop :=
  ∀ configUpdate, env.configUpdate = .ok configUpdate →
    configUpdate.readSet.Distinct ∧ configUpdate.writeSet.Distinct

structure ConfigEnvelope.Distinct (configEnv : ConfigEnvelope) : Prop where
  config : ∀ config, configEnv.config = some config → config.channelGroup.Distinct
  lastUpdate : ∀ env, configEnv.lastUpdate = .ok env → env.Distinct

/-- A manager between two calls; `current` is as it was last made or applied. The map of a new
manager holds the group objects of its `configEnv`, and `recurseConfigMap` writes the groups that
it rebuilds into them: `tree` is what `configEnv` has by now. After an `Apply` the map and
`configEnv` share no objects. -/
structure ConfigManager where
  current : ConfigSet
  shared : Bool
  tree : ConfigGroup

def ConfigSet.manager (current : ConfigSet) (shared : Bool) : ConfigManager :=
  ⟨current, shared, current.channelGroup⟩

/-- The tree that `configMapToConfig` leaves: after an error halfway it may be any tree. -/
def ConfigManager.Leaves (m : ConfigManager) (configMap : ConfigMap) (tree : ConfigGroup) : Prop :=
  if m.shared then ∀ new, configMapToConfig configMap = .ok new → tree = new else tree = m.tree

/-- The states of a manager: as it is made, after a proposal, a validation or a refused `Apply`
whose update was authorized, and after each successful `Apply`. -/
inductive Manages (handlers : Handlers) : ConfigManager → Prop
  | start {channelID : GoString} {config : ChannelConfig} {current : ConfigSet}
      (hd : config.channelGroup.Distinct)
      (h : newManager handlers channelID (some config) = .ok current) :
      Manages handlers (current.manager true)
  | call {m : ConfigManager} {env : UpdateEnvelope} {configMap : ConfigMap} {tree : ConfigGroup}
      (hm : Manages handlers m)
      (h : authorizeUpdate (handlers.policies m.current.channelGroup) m.current env = .ok configMap)
      (hleft : m.Leaves configMap tree) : Manages handlers { m with tree }
  | step {m : ConfigManager} {current : ConfigSet} {configEnv : ConfigEnvelope}
      (hm : Manages handlers m) (hd : configEnv.Distinct)
      (h : apply handlers m.current (some configEnv) = .ok current) :
      Manages handlers (current.manager false)

theorem Represents.same {q : List GoString} {group' : ConfigGroup} (h : Represents m q group)
    (hsame : group.Same group') : Represents m q group' := by
  intro p item e' hfind
  have hrel := hsame p item
  rw [hfind] at hrel
  cases hold : group.find p item with
  | none =>
    rw [hold] at hrel
    cases hrel
  | some e =>
    rw [hold] at hrel
    obtain ⟨x, hx, hxe⟩ := h p item e hold
    cases hrel with
    | some hee => exact ⟨x, hx, hxe.trans hee⟩

section Steps

variable {handlers : Handlers} {current current' : ConfigSet}

theorem newManager_sound (hd : config.channelGroup.Distinct)
    (h : newManager handlers channelID (some config) = .ok current) : Sound current := by
  obtain ⟨-, -, -, hgroup, hm, hprocess⟩ := newManager_eq_ok.mp h
  rw [← hgroup] at hd hm hprocess
  have hmapped := mapConfig_mapped hd hm
  exact ⟨hd, full_of_processConfig hprocess, hmapped.tidy hd, hmapped.represents⟩

theorem Proposed.represents {env : UpdateEnvelope} {configUpdate : ConfigUpdate}
    {new supplied : ConfigGroup}
    (h : Proposed handlers current env configUpdate signedData readSet writeSet new)
    (hs : Sound current) (hd : configUpdate.writeSet.Distinct) (hds : supplied.Distinct)
    (hequal : new.deepEqual supplied = true) :
    supplied.full = true ∧ Represents (updated current readSet writeSet) [] supplied := by
  have hdnew := recurseMap_distinct (h.accepted.tidy hs.tidy hd) (q := []) h.rebuilt
  have hfull := recurseMap_full (q := []) h.rebuilt
  obtain ⟨hfull', hsame⟩ := deepEqual_same new supplied hdnew hds hfull hequal
  exact ⟨hfull', (recurseMap_represents (q := []) h.rebuilt).same hsame⟩

theorem apply_sound (hs : Sound current) (hd : configEnv.Distinct)
    (h : apply handlers current (some configEnv) = .ok current') : Sound current' := by
  obtain ⟨config, env, u, sd, rs, ws, new, hconfig, -, henv, hp, hequal, rfl⟩ := apply_eq_ok.mp h
  have hdw := (hd.lastUpdate env henv u hp.accepted.decoded).2
  obtain ⟨hfull, hrep⟩ := hp.represents hs hdw (hd.config config hconfig) hequal
  exact ⟨hd.config config hconfig, hfull, hp.accepted.tidy hs.tidy hdw, hrep⟩

variable {manager : ConfigManager}

theorem Manages.sound (h : Manages handlers manager) : Sound manager.current := by
  induction h with
  | start hd h => exact newManager_sound hd h
  | call _ _ _ ih => exact ih
  | step _ hd h ih => exact apply_sound ih hd h

theorem Manages.tree_eq (h : Manages handlers manager) (hown : manager.shared = false) :
    manager.tree = manager.current.channelGroup := by
  induction h with
  | start => cases hown
  | call _ _ hleft ih =>
    rw [ConfigManager.Leaves, hown, if_neg Bool.false_ne_true] at hleft
    exact hleft.trans (ih hown)
  | step => rfl

/-- Until its first `Apply` a manager shows the tree of the update that it proposed last. -/
theorem Manages.proposed {env : UpdateEnvelope} {configUpdate : ConfigUpdate} {new : ConfigGroup}
    (hm : Manages handlers manager) (hown : manager.shared = true)
    (h : Proposed handlers manager.current env configUpdate signedData readSet writeSet new) :
    Manages handlers { manager with tree := new } := by
  refine .call hm (authorizeUpdate_eq_ok.mpr ⟨_, _, _, _, h.accepted, rfl⟩) ?_
  rw [ConfigManager.Leaves, if_pos hown]
  intro rebuilt hrebuilt
  exact ok.inj (h.rebuilt.symm.trans hrebuilt)

end Steps

def anchorPeers : GoString := str "AnchorPeers"

/-- The channel group with an application group that has these values. -/
def channelWith (version : UInt64) (values : List (GoString × Option ConfigValue)) : ConfigGroup :=
  .mk 0 admins [(application, .mk version admins [] values [])] [] []

/-- Handlers that accept every tree, with the policy of the administrators: one signature. -/
def oneAdmin : Handlers where
  policies _ := ⟨fun path name =>
    if path = [application] ∧ name = admins then some fun signedData => !signedData.isEmpty
    else none⟩
  process _ _ := .ok ()

def adminSignature : SignedData := ⟨[1], [2], [3]⟩

def updateOf (readSet writeSet : ConfigGroup) (signedData : List SignedData) : UpdateEnvelope :=
  ⟨.ok ⟨str "ch", readSet, writeSet⟩, .ok signedData⟩

theorem distinct_channelWith {version : UInt64} {values : List (GoString × Option ConfigValue)}
    (h : (values.map (·.1)).Nodup) : (channelWith version values).Distinct := by
  simp [channelWith, ConfigGroup.Distinct, DistinctGroups, h]

theorem distinct_updateOf {readSet writeSet : ConfigGroup} (hr : readSet.Distinct)
    (hw : writeSet.Distinct) :
    (updateOf readSet writeSet signedData).Distinct := by
  intro configUpdate h
  cases h
  exact ⟨hr, hw⟩

theorem find_channelWith {version : UInt64} {values : List (GoString × Option ConfigValue)}
    {p : List GoString} {item : Item} {e : Element}
    (h : (channelWith version values).find p item = some e) :
    (p = [] ∧ item = .self) ∨
      (p = [application] ∧ (item = .self ∨ ∃ key v, item = .value key ∧ (key, v) ∈ values)) := by
  cases p with
  | nil =>
    cases item with
    | self => exact .inl ⟨rfl, rfl⟩
    | value k | policy k => cases h
  | cons k p =>
    right
    obtain ⟨g, hg, hfind⟩ := bind_eq_some_iff.mp h
    obtain ⟨rfl, rfl⟩ := mk.inj (mem_singleton.mp (AssocList.mem_of_lookup hg))
    cases p with
    | nil =>
      refine ⟨rfl, ?_⟩
      cases item with
      | self => exact .inl rfl
      | value k =>
        obtain ⟨v, hv, -⟩ := map_eq_some_iff.mp hfind
        exact .inr ⟨k, v, rfl, AssocList.mem_of_lookup (join_eq_some_iff.mp hv)⟩
      | policy k => cases hfind
    | cons k' p => cases hfind

/-- Removes the anchor peers: the application group without them, at its next version. -/
def removal : UpdateEnvelope := updateOf (channelWith 0 []) (channelWith 1 []) [adminSignature]

/-- Lists the anchor peers again, at the version they had, in the read set as well. -/
def relisting : UpdateEnvelope :=
  updateOf (channelWith 1 [(anchorPeers, some ⟨1, none, admins⟩)])
    (channelWith 2 [(anchorPeers, some ⟨1, some [8], admins⟩)]) [adminSignature]

def anchored : ChannelConfig := ⟨0, channelWith 0 [(anchorPeers, some ⟨1, some [7], admins⟩)]⟩

def removed : ConfigEnvelope := ⟨some ⟨1, channelWith 1 []⟩, .ok removal⟩

/-- The channel is made, the anchor peers are removed, and then they are listed again. -/
def relistingRun : Result (ConfigSet × ConfigSet × ConfigEnvelope) := do
  let current ← newManager oneAdmin (str "ch") (some anchored)
  let current' ← apply oneAdmin current (some removed)
  let result ← proposeConfigUpdate oneAdmin current' (.ok relisting)
  .ok (current, current', result)

theorem distinct_removed : removed.Distinct := by
  constructor
  · intro config h
    cases h
    exact distinct_channelWith (by decide)
  · intro env h
    cases h
    exact distinct_updateOf (distinct_channelWith (by decide)) (distinct_channelWith (by decide))

theorem distinct_relisting : relisting.Distinct :=
  distinct_updateOf (distinct_channelWith (by decide)) (distinct_channelWith (by decide))

theorem relistingRun_eq_ok :
    ∃ current current' result new, newManager oneAdmin (str "ch") (some anchored) = .ok current ∧
      apply oneAdmin current (some removed) = .ok current' ∧
      proposeConfigUpdate oneAdmin current' (.ok relisting) = .ok result ∧
      result.config = some ⟨2, new⟩ ∧
      current'.channelGroup.find [application] (.value anchorPeers) = none ∧
      new.find [application] (.value anchorPeers) = some (.value ⟨1, some [7], admins⟩) := by
  have hrun : relistingRun.toOption.bind (fun r => r.2.2.config.map fun config =>
      (config.sequence, r.2.1.channelGroup.find [application] (.value anchorPeers),
        config.channelGroup.find [application] (.value anchorPeers))) =
      some (2, none, some (.value ⟨1, some [7], admins⟩)) := by
    decide +kernel
  obtain ⟨⟨current, current', result⟩, hok, hresult⟩ := bind_eq_some_iff.mp hrun
  obtain ⟨⟨sequence, new⟩, hconfig, hfound⟩ := map_eq_some_iff.mp hresult
  obtain ⟨rfl, hfound⟩ := mk.inj hfound
  obtain ⟨hold, hnew⟩ := mk.inj hfound
  obtain ⟨c, hmanager, hok⟩ := bind_ok.mp (toOption_eq_some hok)
  obtain ⟨c', happly, hok⟩ := bind_ok.mp hok
  obtain ⟨r, hpropose, hok⟩ := bind_ok.mp hok
  cases hok
  exact ⟨current, current', result, new, hmanager, happly, hpropose, hconfig, hold, hnew⟩

theorem removal_asksOwners :
    AsksOwners (oneAdmin.policies anchored.channelGroup) [adminSignature] anchored.channelGroup
      (channelWith 1 []) ⟨str "ch", channelWith 0 [], channelWith 1 []⟩ := by
  constructor
  · intro p item e w hold hin _
    rcases find_channelWith hin.1 with ⟨rfl, rfl⟩ | ⟨rfl, rfl | ⟨key, v, -, hmem⟩⟩
    · cases hin.1
      exact absurd rfl (hin.2 _ rfl)
    · cases hold
      exact ⟨_, rfl, rfl⟩
    · cases hmem
  · intro p item e hold hnew
    rcases find_channelWith hnew with ⟨rfl, rfl⟩ | ⟨rfl, rfl | ⟨key, v, -, hmem⟩⟩
    · cases hold
    · cases hold
    · cases hmem

/-- The policy that the check of the delta set finds and evaluates for a key. -/
def Evaluated (policyManager : PolicyManager) (m deltaSet : ConfigMap) (k : GoString)
    (policy : List SignedData → Bool) : Prop :=
  ∃ v c, deltaSet[k]? = some v ∧ m[k]? = some c ∧ policyForItem policyManager c = .ok (some policy)

/-- Another tree, for which a policy of the current tree was evaluated and satisfied, by signatures
unless a policy takes an empty list. -/
structure Guarded (policyManager : PolicyManager) (current : ConfigSet)
    (configUpdate : ConfigUpdate) (signedData : List SignedData) (new : ConfigGroup) : Prop where
  differs : ¬ current.channelGroup.Same new
  consulted : ∃ readSet writeSet p item policy, mapConfig configUpdate.readSet = .ok readSet ∧
    mapConfig configUpdate.writeSet = .ok writeSet ∧
    (current.channelGroup.find p item).isSome ∧
    Evaluated policyManager current.configMap (computeDeltaSet readSet writeSet) (keyOf p item)
      policy ∧
    policy signedData = true
  signed : (∀ path name policy, policyManager.policy path name = some policy →
    policy [] = false) → signedData ≠ []

/-- The update changes an element of the tree. -/
def Rewrites (configUpdate : ConfigUpdate) (group : ConfigGroup) : Prop :=
  ∃ p item e, InDelta configUpdate p item e ∧ (group.find p item).isSome

theorem policy_of_policyForItem {policy : List SignedData → Bool}
    (h : policyForItem policyManager c = .ok (some policy)) :
    ∃ path name, policyManager.policy path name = some policy := by
  unfold policyForItem at h
  split at h
  · cases h
  · split at h
    · exact ⟨_, _, ok.inj h⟩
    · exact ⟨_, _, ok.inj h⟩

/-- An accepted update of a reachable state consults a policy and changes the tree exactly when
its delta set has an element of the tree that was last applied. A manager that shares nothing with
its map shows that tree; one that does shows the new tree already after the proposal, so that the
same update proposed once more changes nothing that it shows. -/
theorem guarded_iff_rewrites {handlers : Handlers} {manager : ConfigManager} {env : UpdateEnvelope}
    {configUpdate : ConfigUpdate} {signedData : List SignedData} {result : ConfigEnvelope}
    {config : ChannelConfig} (hm : Manages handlers manager) (hd : env.Distinct)
    (h : proposeConfigUpdate handlers manager.current (.ok env) = .ok result)
    (hu : env.configUpdate = .ok configUpdate) (hsigned : env.signedData = .ok signedData)
    (hconfig : result.config = some config) :
    (Guarded (handlers.policies manager.current.channelGroup) manager.current configUpdate
      signedData config.channelGroup ↔ Rewrites configUpdate manager.current.channelGroup) ∧
    (manager.shared = false → manager.tree = manager.current.channelGroup) ∧
    (manager.shared = true → Manages handlers { manager with tree := config.channelGroup }) := by
  have hs := hm.sound
  obtain ⟨_, u, sd, rs, ws, new, henv, hp, rfl⟩ := proposeUpdate_eq_ok.mp h
  cases henv
  cases hconfig
  refine ⟨?_, hm.tree_eq, fun hown => hm.proposed hown hp⟩
  cases hu.symm.trans hp.accepted.decoded
  cases hsigned.symm.trans hp.accepted.signed
  obtain ⟨hdr, hdw⟩ := hd configUpdate hu
  constructor
  · intro hg
    obtain ⟨rs', ws', p, item, policy, hrs, hws, hfound, ⟨v, c, hv, -, -⟩, -⟩ := hg.consulted
    cases hrs.symm.trans hp.accepted.mapsRead
    cases hws.symm.trans hp.accepted.mapsWrite
    obtain ⟨e, he⟩ := isSome_iff_exists.mp hfound
    have hin := (hs.delta_iff hp.accepted hdr hdw he).mp ⟨v, hv, rfl⟩
    exact ⟨p, item, v.element, hin, hfound⟩
  · intro hrewrites
    obtain ⟨p, item, w, hin, hfound⟩ := hrewrites
    obtain ⟨e, he⟩ := isSome_iff_exists.mp hfound
    obtain ⟨v, hv, -⟩ := (hs.delta_iff hp.accepted hdr hdw he).mpr hin
    obtain ⟨x, hx, -⟩ := hs.represents p item e he
    obtain ⟨c, hc, rfl⟩ := map_eq_some_iff.mp hx
    rw [nil_append] at hc
    have hpermitted := hp.accepted.permitted _ v hv
    rw [Permitted, hc] at hpermitted
    obtain ⟨-, policy, hpolicy, hsat⟩ := hpermitted
    refine ⟨?_, ?_, ?_⟩
    · intro hsame
      -- in the same tree the element would have its old version, and it has the next one
      have hrel := hsame p item
      rw [he] at hrel
      cases hnew : new.find p item with
      | none =>
        rw [hnew] at hrel
        cases hrel
      | some y =>
        rw [hnew] at hrel
        have hnext := (hs.version_of_kept hp.accepted hdr hdw
          (recurseMap_represents (q := []) hp.rebuilt) he hnew).1 w hin
        cases hrel with
        | some hey => exact ne_add_one _ (hey.version_eq.trans hnext)
    · exact ⟨rs, ws, p, item, policy, hp.accepted.mapsRead, hp.accepted.mapsWrite, hfound,
        ⟨v, c, hv, hc, hpolicy⟩, hsat⟩
    · intro hstrict hempty
      obtain ⟨path, name, hfoundPolicy⟩ := policy_of_policyForItem hpolicy
      rw [hempty, hstrict path name policy hfoundPolicy] at hsat
      cases hsat

/-- The removal of the anchor peers needs the signature of an administrator. -/
theorem removal_guarded :
    ∃ current result config, newManager oneAdmin (str "ch") (some anchored) = .ok current ∧
      proposeConfigUpdate oneAdmin current (.ok removal) = .ok result ∧
      result.config = some config ∧
      Guarded (oneAdmin.policies current.channelGroup) current
        ⟨str "ch", channelWith 0 [], channelWith 1 []⟩ [adminSignature] config.channelGroup := by
  have hrun : ((newManager oneAdmin (str "ch") (some anchored) >>= fun current =>
      proposeConfigUpdate oneAdmin current (.ok removal) >>= fun result =>
      .ok (current, result)).toOption.bind fun r => r.2.config.map fun _ => 0) = some 0 := by
    decide +kernel
  obtain ⟨⟨current, result⟩, hok, hresult⟩ := bind_eq_some_iff.mp hrun
  obtain ⟨config, hconfig, -⟩ := map_eq_some_iff.mp hresult
  obtain ⟨c, hmanager, hok⟩ := bind_ok.mp (toOption_eq_some hok)
  obtain ⟨r, hpropose, hok⟩ := bind_ok.mp hok
  cases hok
  have hgroup : current.channelGroup = anchored.channelGroup :=
    (newManager_eq_ok.mp hmanager).2.2.2.1
  refine ⟨current, result, config, hmanager, hpropose, hconfig, ?_⟩
  refine (guarded_iff_rewrites (.start (distinct_channelWith (by decide)) hmanager)
    (distinct_updateOf (distinct_channelWith (by decide)) (distinct_channelWith (by decide)))
    hpropose rfl rfl hconfig).1.mpr ⟨[application], .self, _, ⟨rfl, ?_⟩, ?_⟩
  · intro r hr
    cases hr
    decide
  · show (current.channelGroup.find _ _).isSome
    rw [hgroup]
    decide +kernel

/-- A value for the application group, with the group itself at the version it has. -/
def unlisted : UpdateEnvelope :=
  updateOf (channelWith 0 []) (channelWith 0 [(str "Extra", some ⟨0, some [9], admins⟩)]) []

/-- Nobody signed, no policy was evaluated, and the tree is the one before; still the update
is accepted with the next sequence number. -/
theorem unlisted_accepted :
    ∃ current result config, newManager oneAdmin (str "ch") (some anchored) = .ok current ∧
      unlisted.Distinct ∧ unlisted.signedData = .ok [] ∧
      proposeConfigUpdate oneAdmin current (.ok unlisted) = .ok result ∧
      result.config = some config ∧ config.sequence = current.sequence + 1 ∧
      current.channelGroup.Same config.channelGroup ∧
      ∀ configUpdate, unlisted.configUpdate = .ok configUpdate →
        ¬ Guarded (oneAdmin.policies current.channelGroup) current configUpdate []
          config.channelGroup := by
  have hrun : ((newManager oneAdmin (str "ch") (some anchored) >>= fun current =>
      proposeConfigUpdate oneAdmin current (.ok unlisted) >>= fun result =>
      .ok (current, result)).toOption.bind fun r => r.2.config.map fun config =>
        (decide (config.sequence = r.1.sequence + 1),
          r.1.channelGroup.deepEqual config.channelGroup)) = some (true, true) := by
    decide +kernel
  obtain ⟨⟨current, result⟩, hok, hresult⟩ := bind_eq_some_iff.mp hrun
  obtain ⟨config, hconfig, hfound⟩ := map_eq_some_iff.mp hresult
  obtain ⟨hseq, hequal⟩ := mk.inj hfound
  obtain ⟨c, hmanager, hok⟩ := bind_ok.mp (toOption_eq_some hok)
  obtain ⟨r, hpropose, hok⟩ := bind_ok.mp hok
  cases hok
  have hd : unlisted.Distinct :=
    distinct_updateOf (distinct_channelWith (by decide)) (distinct_channelWith (by decide))
  have hs := newManager_sound (distinct_channelWith (by decide)) hmanager
  obtain ⟨_, u, sd, rs, ws, new, henv, hp, hnew⟩ := proposeUpdate_eq_ok.mp hpropose
  cases henv
  cases hnew
  cases hconfig
  have hdnew := recurseMap_distinct
    (hp.accepted.tidy hs.tidy (hd u hp.accepted.decoded).2) (q := []) hp.rebuilt
  have hsame := (deepEqual_same _ _ hs.distinct hdnew hs.full hequal).2
  exact ⟨current, _, _, hmanager, hd, rfl, hpropose, rfl, of_decide_eq_true hseq, hsame,
    fun _ _ hg => hg.differs hsame⟩

/-! ## From a proposal to the next configuration -/

/-- What a manager proposes it accepts and applies, once. -/
theorem proposal_applies_once {handlers : Handlers} {manager : ConfigManager}
    (hm : Manages handlers manager) {env : UpdateEnvelope} (hd : env.Distinct)
    {result : ConfigEnvelope}
    (h : proposeConfigUpdate handlers manager.current (.ok env) = .ok result) :
    ∃ current, validate handlers manager.current (some result) = .ok () ∧
      apply handlers manager.current (some result) = .ok current ∧
      Manages handlers (current.manager false) ∧
      current.sequence = manager.current.sequence + 1 ∧
      result.config = some ⟨current.sequence, current.channelGroup⟩ ∧
      ∀ again, apply handlers current (some result) ≠ .ok again := by
  obtain ⟨_, u, sd, rs, ws, new, henv, hp, rfl⟩ := proposeUpdate_eq_ok.mp h
  cases henv
  have hdnew := recurseMap_distinct
    (hp.accepted.tidy hm.sound.tidy (hd u hp.accepted.decoded).2) (q := []) hp.rebuilt
  have hfull := recurseMap_full (q := []) hp.rebuilt
  have hequal := deepEqual_of_same new new hdnew hfull hfull fun _ _ => rel_refl _
  have happly : apply handlers manager.current
      (some ⟨some ⟨manager.current.sequence + 1, new⟩, .ok env⟩) = .ok _ :=
    apply_eq_ok.mpr ⟨_, env, u, sd, rs, ws, new, rfl, rfl, rfl, hp, hequal, rfl⟩
  refine ⟨_, ?_, happly, ?_, rfl, rfl, fun again hagain => ?_⟩
  · obtain ⟨r, hprepare, -⟩ := bind_ok.mp happly
    exact bind_ok.mpr ⟨r, hprepare, rfl⟩
  · refine hm.step ⟨fun config hconfig => ?_, fun env' henv => ?_⟩ happly
    · cases hconfig
      exact hdnew
    · cases henv
      exact hd
  · obtain ⟨config, _, _, _, _, _, _, hconfig, hseq, -⟩ := apply_eq_ok.mp hagain
    cases hconfig
    simp at hseq

/-- The anchor peers that are listed again. -/
theorem relisting_applies_once :
    ∃ current current' result, proposeConfigUpdate oneAdmin current (.ok relisting) = .ok result ∧
      apply oneAdmin current (some result) = .ok current' ∧ current'.sequence = 2 := by
  obtain ⟨start, current, result, new, hstart, happly, hpropose, hresult, -⟩ := relistingRun_eq_ok
  have hm : Manages oneAdmin (current.manager false) :=
    .step (.start (distinct_channelWith (by decide)) hstart) distinct_removed happly
  obtain ⟨current', -, happly', -, -, hconfig, -⟩ :=
    proposal_applies_once hm distinct_relisting hpropose
  have hseq := hresult.symm.trans hconfig
  exact ⟨current, current', result, hpropose, happly', (congrArg ChannelConfig.sequence
    (some.inj hseq)).symm⟩

end FabricOev.Config
