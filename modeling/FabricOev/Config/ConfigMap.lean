import FabricOev.Go.Outcome
import FabricOev.Go.Slices
import FabricOev.Lib.FinMap

/-!
# Channel configuration and its map of elements

`MapConfig` of `common/configtx` flattens the tree of a configuration into a map from paths to the
elements, each with its key and the path of its group. Go maps of a group are lists of entries in
the order in which a range visits them; a nil map value is `nil` or `none`. The path of a subgroup
is `append(path, key)`, so it may share the backing array of its parent's path.
-/

namespace FabricOev.Config

open Go Lib.FinMap Result

structure ConfigValue where
  version : UInt64
  value : Option Bytes
  modPolicy : GoString
deriving DecidableEq, Repr

structure PolicyMsg where
  type : Int32
  value : Option Bytes
deriving DecidableEq, Repr

structure ConfigPolicy where
  version : UInt64
  policy : Option PolicyMsg
  modPolicy : GoString
deriving DecidableEq, Repr

inductive ConfigGroup where
  | nil
  | mk (version : UInt64) (modPolicy : GoString) (groups : List (GoString × ConfigGroup))
      (values : List (GoString × Option ConfigValue))
      (policies : List (GoString × Option ConfigPolicy))

/-- What the map keeps of a group: its own fields and the keys of its maps. -/
structure GroupNode where
  version : UInt64
  modPolicy : GoString
  groups : List GoString
  values : List GoString
  policies : List GoString
deriving DecidableEq, Repr

/-- The pointers of a `comparable`, of which one at most is set. -/
inductive Element where
  | group (node : GroupNode)
  | value (v : ConfigValue)
  | policy (p : ConfigPolicy)
  | unset
deriving DecidableEq, Repr

def Element.version : Element → UInt64
  | .group node => node.version
  | .value v => v.version
  | .policy p => p.version
  | .unset => 0

def Element.modPolicy : Element → GoString
  | .group node => node.modPolicy
  | .value v => v.modPolicy
  | .policy p => p.modPolicy
  | .unset => []

/-- `GroupPrefix`, `ValuePrefix` and `PolicyPrefix`. -/
def Element.pathPrefix : Element → GoString
  | .group _ => str "[Groups] "
  | .value _ => str "[Values] "
  | .policy _ => str "[Policy] "
  | .unset => []

def Element.ofValue : Option ConfigValue → Element
  | some v => .value v
  | none => .unset

def Element.ofPolicy : Option ConfigPolicy → Element
  | some p => .policy p
  | none => .unset

/-- A `comparable`; `P` is the type of its path. -/
structure ComparableOver (P : Type) where
  element : Element
  key : GoString
  path : P
deriving DecidableEq, Repr

abbrev Comparable := ComparableOver (List GoString)

def rootGroupKey : GoString := str "Channel"

/-- `strings.Join(path, "/")` with a separator in front of each part. -/
def joined (path : List GoString) : GoString := path.flatMap (str "/" ++ ·)

def allowedChar (c : UInt8) : Bool :=
  (0x61 ≤ c && c ≤ 0x7A) || (0x41 ≤ c && c ≤ 0x5A) || (0x30 ≤ c && c ≤ 0x39) ||
    c == 0x2E || c == 0x2D

/-- `validateConfigID`: every byte is allowed. -/
def validConfigID (configID : GoString) : Bool :=
  configID.length ≠ 0 && configID.length ≤ 249 && configID ≠ str "." && configID ≠ str ".." &&
    configID.all allowedChar

/-- `addToMap`: the key of the entry, from what its path shows now. -/
def addToMap (h : Arrays GoString) (cg : ComparableOver Slice) :
    Result (GoString × ComparableOver Slice) :=
  if validConfigID cg.key then
    .ok (cg.element.pathPrefix ++ joined (cg.path.read h ++ [cg.key]), cg)
  else fail (.text (str "Illegal characters in key: " ++ cg.element.pathPrefix))

def ConfigGroup.node : ConfigGroup → GroupNode
  | .nil => ⟨0, [], [], [], []⟩
  | .mk version modPolicy groups values policies =>
    ⟨version, modPolicy, groups.map (·.1), values.map (·.1), policies.map (·.1)⟩

def ConfigGroup.element : ConfigGroup → Element
  | .nil => .unset
  | .mk version modPolicy groups values policies =>
    .group (mk version modPolicy groups values policies).node

/-- Entries of the map in the order in which they are made; paths are still slices. -/
abbrev RawEntries := List (GoString × ComparableOver Slice)

mutual

/-- `recurseConfig`. Ranging over the maps of a nil group is a nil dereference. -/
def recurseConfig (h : Arrays GoString) (path : Slice) :
    ConfigGroup → Result (Arrays GoString × RawEntries)
  | .nil => do
    let key ← index (path.read h) (path.len - 1)
    let _ ← addToMap h ⟨.unset, key, ⟨path.array, path.len - 1⟩⟩
    panicWith .nilDereference
  | .mk version modPolicy groups values policies => do
    let key ← index (path.read h) (path.len - 1)
    let own ← addToMap h ⟨(ConfigGroup.mk version modPolicy groups values policies).element, key,
      ⟨path.array, path.len - 1⟩⟩
    let (h, below) ← recurseGroups h path groups
    let ofValues ← values.mapM fun e => addToMap h ⟨.ofValue e.2, e.1, path⟩
    let ofPolicies ← policies.mapM fun e => addToMap h ⟨.ofPolicy e.2, e.1, path⟩
    .ok (h, own :: below ++ ofValues ++ ofPolicies)

def recurseGroups (h : Arrays GoString) (path : Slice) :
    List (GoString × ConfigGroup) → Result (Arrays GoString × RawEntries)
  | [] => .ok (h, [])
  | (key, group) :: rest => do
    let (h, nextPath) := path.append h key
    let (h, below) ← recurseConfig h nextPath group
    let (h, behind) ← recurseGroups h path rest
    .ok (h, below ++ behind)

end

/-- A comparable as its readers see it once the map is built. -/
def ComparableOver.resolve (h : Arrays GoString) (cg : ComparableOver Slice) : Comparable :=
  ⟨cg.element, cg.key, cg.path.read h⟩

abbrev ConfigMap := Std.ExtTreeMap GoString Comparable compare

def rootArrays : Arrays GoString := [⟨1, [rootGroupKey]⟩]

/-- The entries `MapConfig` makes, with the paths as they are when it returns. -/
def mapEntries (channelGroup : ConfigGroup) : Result (List (GoString × Comparable)) :=
  match channelGroup with
  | .nil => .ok []
  | group => do
    let (h, entries) ← recurseConfig rootArrays ⟨0, 1⟩ group
    .ok (entries.map fun e => (e.1, e.2.resolve h))

def mapConfig (channelGroup : ConfigGroup) : Result ConfigMap := do
  let entries ← mapEntries channelGroup
  .ok (insertAll ∅ entries)

end FabricOev.Config
