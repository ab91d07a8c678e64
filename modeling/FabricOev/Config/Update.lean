import FabricOev.Config.ConfigMap
import FabricOev.Policy.Cauthdsl

/-!
# Configuration updates

The configuration manager of `common/configtx`: `authorizeUpdate` checks the read set against the
current map, finds the elements of the write set that are new or have another version, asks the
policies of the existing ones among them, and lays them over the current map; `configMapToConfig`
makes a tree of the result, following the keys of each group from the root. Envelopes come decoded.
The handlers of values, policies and MSPs are parameters. A range over a Go map that stops at the
first error visits the keys in order here.
-/

namespace FabricOev.Config

open Go Lib.FinMap Policy Result

/-- Sub-managers by their path, and their policies by name; `none` is a missing one. -/
structure PolicyManager where
  policy : List GoString → GoString → Option (List SignedData → Bool)

structure ConfigUpdate where
  channelId : GoString
  readSet : ConfigGroup
  writeSet : ConfigGroup

/-- A `ConfigUpdateEnvelope` with what `UnmarshalConfigUpdate` and `AsSignedData` return. -/
structure UpdateEnvelope where
  configUpdate : Result ConfigUpdate
  signedData : Result (List SignedData)

structure ChannelConfig where
  sequence : UInt64
  channelGroup : ConfigGroup

/-- `lastUpdate` is what `envelopeToConfigUpdate` returns. -/
structure ConfigEnvelope where
  config : Option ChannelConfig
  lastUpdate : Result UpdateEnvelope

/-- `configSet`; `channelGroup` is the tree that `configEnv` came with. -/
structure ConfigSet where
  channelID : GoString
  sequence : UInt64
  configMap : ConfigMap
  channelGroup : ConfigGroup

/-- The policies once a tree is committed, and whether a tree is accepted after the committed one.
-/
structure Handlers where
  policies : ConfigGroup → PolicyManager
  process : Option ConfigGroup → ConfigGroup → Result Unit

def message : GoError → GoString
  | .text msg => msg
  | _ => []

/-- `fmt.Errorf("...: %s", err)`. -/
def wrap {α : Type} (text : String) : Result α → Result α
  | .error (.error e) => fail (.text (str text ++ message e))
  | r => r

theorem wrap_eq_ok {α : Type} {text : String} {x : Result α} {a : α} :
    wrap text x = .ok a ↔ x = .ok a := by
  unfold wrap
  split
  · constructor
    · intro h
      cases h
    · intro h
      cases h
  · rfl

def decimal (n : UInt64) : GoString := formatNat n.toNat

abbrev ComparableOver.version {P : Type} (cg : ComparableOver P) : UInt64 := cg.element.version

def verifyReadSet (configMap readSet : ConfigMap) : Result Unit :=
  readSet.toList.forM fun (key, value) =>
    match configMap[key]? with
    | none => fail (.text (str "Existing config does not contain element for " ++ key ++
        str " but was in the read set"))
    | some existing =>
      if existing.version ≠ value.version then
        fail (.text (str "Readset expected key " ++ key ++ str " at version " ++
          decimal value.version ++ str ", but got version " ++ decimal existing.version))
      else .ok ()

def computeDeltaSet (readSet writeSet : ConfigMap) : ConfigMap :=
  writeSet.filter fun key value =>
    match readSet[key]? with
    | some readVal => readVal.version ≠ value.version
    | none => true

/-- `policyForItem`. The path of the root group is empty, and slicing it from 1 on panics. -/
def policyForItem (policyManager : PolicyManager) (item : Comparable) :
    Result (Option (List SignedData → Bool)) :=
  match item.path with
  | [] => panicWith .indexOutOfRange
  | _ :: path =>
    match item.element with
    | .group node => .ok (policyManager.policy (path ++ [item.key]) node.modPolicy)
    | element => .ok (policyManager.policy path element.modPolicy)

def verifyDeltaSet (policyManager : PolicyManager) (configMap deltaSet : ConfigMap)
    (signedData : List SignedData) : Result Unit :=
  if deltaSet.isEmpty then
    errorf "Delta set was empty.  Update would have no effect."
  else
    deltaSet.toList.forM fun (key, value) =>
      match configMap[key]? with
      | none =>
        if value.version ≠ 0 then
          fail (.text (str "Attempted to set key " ++ key ++ str " to version " ++
            decimal value.version ++ str ", but key does not exist"))
        else .ok ()
      | some existing =>
        if value.version ≠ existing.version + 1 then
          fail (.text (str "Attempt to set key " ++ key ++ str " to version " ++
            decimal value.version ++ str ", but key is at version " ++ decimal existing.version))
        else do
          match ← policyForItem policyManager existing with
          | none =>
            fail (.text (str "Unexpected missing policy " ++ existing.element.modPolicy ++
              str " for item " ++ key))
          | some policy =>
            if policy signedData then .ok ()
            else fail (.text (str "Policy for " ++ key ++ str " not satisfied: "))

def verifyFullProposedConfig (writeSet fullProposedConfig : ConfigMap) : Result Unit :=
  writeSet.toList.forM fun (key, _) =>
    if (fullProposedConfig[key]?).isNone then
      fail (.text (str "Writeset contained key " ++ key ++
        str " which did not appear in proposed config"))
    else .ok ()

def computeUpdateResult (configMap updatedConfig : ConfigMap) : ConfigMap :=
  overlay some configMap updatedConfig

def authorizeUpdate (policyManager : PolicyManager) (current : ConfigSet) (env : UpdateEnvelope) :
    Result ConfigMap := do
  let configUpdate ← env.configUpdate
  if configUpdate.channelId ≠ current.channelID then
    fail (.text (str "Update not for correct channel: " ++ configUpdate.channelId ++
      str " for " ++ current.channelID))
  else do
    let readSet ← wrap "Error mapping ReadSet: " (mapConfig configUpdate.readSet)
    wrap "Error validating ReadSet: " (verifyReadSet current.configMap readSet)
    let writeSet ← wrap "Error mapping WriteSet: " (mapConfig configUpdate.writeSet)
    let deltaSet := computeDeltaSet readSet writeSet
    let signedData ← env.signedData
    wrap "Error validating DeltaSet: "
      (verifyDeltaSet policyManager current.configMap deltaSet signedData)
    let fullProposedConfig := computeUpdateResult current.configMap deltaSet
    wrap "Full config did not verify: " (verifyFullProposedConfig writeSet fullProposedConfig)
    .ok fullProposedConfig

/-- `recurseConfigMap`. Every step looks up a longer key, so the bound is not reached. The source
writes what it finds into the group objects of the map, in place: the result is the object of the
root group, and a tree that the map was made from changes with it (see `ConfigManager`). -/
def recurseConfigMap (configMap : ConfigMap) : Nat → GoString → Result ConfigGroup
  | 0, _ => errorf "path longer than every key"
  | bound + 1, path =>
    match (configMap[str "[Groups] " ++ path]?).map (·.element) with
    | none => fail (.text (str "Missing group at path: " ++ str "[Groups] " ++ path))
    | some (.group node) => do
      let groups ← node.groups.mapM fun key => do
        let updatedGroup ← recurseConfigMap configMap bound (path ++ str "/" ++ key)
        .ok (key, updatedGroup)
      let values ← node.values.mapM fun key => do
        let valuePath := str "[Values] " ++ path ++ str "/" ++ key
        match (configMap[valuePath]?).map (·.element) with
        | none => fail (.text (str "Missing value at path: " ++ valuePath))
        | some (.value v) => .ok (key, some v)
        | some _ => fail (.text (str "ConfigValue not found at value path: " ++ valuePath))
      let policies ← node.policies.mapM fun key => do
        let policyPath := str "[Policy] " ++ path ++ str "/" ++ key
        match (configMap[policyPath]?).map (·.element) with
        | none => fail (.text (str "Missing policy at path: " ++ policyPath))
        | some (.policy p) => .ok (key, some p)
        | some _ => fail (.text (str "ConfigPolicy not found at policy path: " ++ policyPath))
      .ok (.mk node.version node.modPolicy groups values policies)
    | some _ =>
      fail (.text (str "ConfigGroup not found at group path: " ++ str "[Groups] " ++ path))

def longestKey (configMap : ConfigMap) : Nat := configMap.keys.foldr (fun k n => max k.length n) 0

def configMapToConfig (configMap : ConfigMap) : Result ConfigGroup :=
  recurseConfigMap configMap (longestKey configMap + 1) (str "/" ++ rootGroupKey)

mutual

def ConfigGroup.full : ConfigGroup → Bool
  | .nil => false
  | .mk _ _ groups values policies =>
    fullGroups groups && values.all (·.2.isSome) && policies.all (·.2.isSome)

def fullGroups : List (GoString × ConfigGroup) → Bool
  | [] => true
  | (_, group) :: rest => group.full && fullGroups rest

end

/-- `processConfig`: a nil entry is dereferenced when it is proposed. -/
def processConfig (handlers : Handlers) (committed : Option ConfigGroup)
    (channelGroup : ConfigGroup) : Result Unit :=
  if channelGroup.full then handlers.process committed channelGroup
  else panicWith .nilDereference

def allowedChannelChar (c : UInt8) : Bool :=
  (0x61 ≤ c && c ≤ 0x7A) || (0x30 ≤ c && c ≤ 0x39) || c == 0x2E || c == 0x2D

/-- `validateChannelID`. -/
def validChannelID (channelID : GoString) : Bool :=
  channelID.length ≠ 0 && channelID.length ≤ 249 &&
    channelID.head?.any (fun c => 0x61 ≤ c && c ≤ 0x7A) && channelID.all allowedChannelChar

/-- `NewManagerImpl` on the channel id of the header and the decoded configuration. -/
def newManager (handlers : Handlers) (channelID : GoString) (config : Option ChannelConfig) :
    Result ConfigSet :=
  match config with
  | none => errorf "Nil config envelope Config"
  | some ⟨_, .nil⟩ => errorf "nil channel group"
  | some ⟨sequence, channelGroup⟩ =>
    if validChannelID channelID then do
      let configMap ← wrap "Error converting config to map: " (mapConfig channelGroup)
      processConfig handlers none channelGroup
      .ok ⟨channelID, sequence, configMap, channelGroup⟩
    else errorf "Bad channel id: "

def proposeConfigUpdate (handlers : Handlers) (current : ConfigSet)
    (configtx : Result UpdateEnvelope) : Result ConfigEnvelope := do
  let configUpdateEnv ← wrap "Error converting envelope to config update: " configtx
  let configMap ← wrap "Error authorizing update: "
    (authorizeUpdate (handlers.policies current.channelGroup) current configUpdateEnv)
  let channelGroup ← wrap "Could not turn configMap back to channelGroup: "
    (configMapToConfig configMap)
  wrap "Error processing updated config: "
    (processConfig handlers (some current.channelGroup) channelGroup)
  .ok ⟨some ⟨current.sequence + 1, channelGroup⟩, configtx⟩

mutual

/-- `reflect.DeepEqual` of two groups. -/
def ConfigGroup.deepEqual : ConfigGroup → ConfigGroup → Bool
  | .nil, .nil => true
  | .mk version modPolicy groups values policies,
      .mk version' modPolicy' groups' values' policies' =>
    version == version' && modPolicy == modPolicy' && groups.length == groups'.length &&
      values.length == values'.length && policies.length == policies'.length &&
      deepEqualGroups groups groups' &&
      values.all (fun e => values'.lookup e.1 == some e.2) &&
      policies.all (fun e => policies'.lookup e.1 == some e.2)
  | _, _ => false

def deepEqualGroups : List (GoString × ConfigGroup) → List (GoString × ConfigGroup) → Bool
  | [], _ => true
  | (key, group) :: rest, groups' =>
    (match groups'.lookup key with
      | some group' => group.deepEqual group'
      | none => false) && deepEqualGroups rest groups'

end

def prepareApply (handlers : Handlers) (current : ConfigSet) (configEnv : Option ConfigEnvelope) :
    Result (ConfigMap × ChannelConfig) :=
  match configEnv with
  | none => errorf "Attempted to apply config with nil envelope"
  | some ⟨none, _⟩ => errorf "Config cannot be nil"
  | some ⟨some config, lastUpdate⟩ =>
    if config.sequence ≠ current.sequence + 1 then
      fail (.text (str "Config at sequence " ++ decimal current.sequence ++
        str ", cannot prepare to update to " ++ decimal config.sequence))
    else do
      let configUpdateEnv ← lastUpdate
      let configMap ←
        authorizeUpdate (handlers.policies current.channelGroup) current configUpdateEnv
      let channelGroup ← wrap "Could not turn configMap back to channelGroup: "
        (configMapToConfig configMap)
      if channelGroup.deepEqual config.channelGroup = false then
        errorf "ConfigEnvelope LastUpdate did not produce the supplied config result"
      else do
        processConfig handlers (some current.channelGroup) channelGroup
        .ok (configMap, config)

def validate (handlers : Handlers) (current : ConfigSet) (configEnv : Option ConfigEnvelope) :
    Result Unit := do
  let _ ← prepareApply handlers current configEnv
  .ok ()

/-- `Apply`: the configuration set that becomes the current one. -/
def apply (handlers : Handlers) (current : ConfigSet) (configEnv : Option ConfigEnvelope) :
    Result ConfigSet := do
  let (configMap, config) ← prepareApply handlers current configEnv
  .ok ⟨current.channelID, config.sequence, configMap, config.channelGroup⟩

end FabricOev.Config
