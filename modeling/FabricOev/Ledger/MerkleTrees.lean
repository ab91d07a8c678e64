import FabricOev.Go.Sha256
import FabricOev.Ledger.QuerySummaries
import FabricOev.Ledger.RwSetRoundTrip
import FabricOev.Lib.LevelTree

/-!
# The trees behind the summaries

The tree of `RangeQueryResultsHelper` holds hashes only. Here each of its nodes also carries
the results under it and the strings that were hashed for it, so that two trees whose hashes
agree can be compared by what they stand for. The hash is assumed to have no collision among
the strings that are hashed; no hash of a fixed length is injective beyond that.
-/

namespace FabricOev.Ledger

open Go Go.Wire Lib List LevelTree Option Nat Prod

variable {hash : Bytes → Bytes} {deg : Nat} {rs : List KvRead} {γ : Type}

/-- A node with the results under it, and the strings hashed for its leaves and inner nodes. -/
structure HashNode where
  digest : Bytes
  reads : List KvRead
  leaves : List Bytes
  inner : List Bytes
deriving DecidableEq

namespace HashNode

def leaf (hash : Bytes → Bytes) (rs : List KvRead) : HashNode :=
  ⟨hash (serializeKvReads rs), rs, [serializeKvReads rs], []⟩

def combine (hash : Bytes → Bytes) (xs : List HashNode) : HashNode :=
  ⟨computeCombinedHash hash (xs.map digest), xs.flatMap reads, xs.flatMap leaves,
    xs.flatMap inner ++ [(xs.map digest).flatten]⟩

inductive Made (hash : Bytes → Bytes) : HashNode → Prop
  | leaf (rs : List KvRead) : Made hash (leaf hash rs)
  | combine (xs : List HashNode) : (∀ x ∈ xs, Made hash x) → Made hash (combine hash xs)

theorem reads_combine (xs : List HashNode) : (combine hash xs).reads = xs.flatMap reads := rfl

theorem mem_leaves_combine (xs : List HashNode) :
    ∀ x ∈ xs, ∀ s ∈ x.leaves, s ∈ (combine hash xs).leaves :=
  fun x hx _ hs => mem_flatMap.mpr ⟨x, hx, hs⟩

theorem mem_inner_combine (xs : List HashNode) :
    ∀ x ∈ xs, ∀ s ∈ x.inner, s ∈ (combine hash xs).inner :=
  fun x hx _ hs => mem_append_left _ (mem_flatMap.mpr ⟨x, hx, hs⟩)

end HashNode

/-! ## Collisions -/

/-- No collision among the hashed strings, hashes of one length, and no leaf is taken for an inner
node. -/
structure CollisionFree (hash : Bytes → Bytes) (size : Nat) (leaves inner : List Bytes) : Prop where
  pos : 0 < size
  injective : ∀ s ∈ leaves ++ inner, ∀ t ∈ leaves ++ inner, hash s = hash t → s = t
  length : ∀ s ∈ leaves ++ inner, (hash s).length = size
  separate : ∀ s ∈ leaves, s ∉ inner

instance (hash : Bytes → Bytes) (size : Nat) (leaves inner : List Bytes) :
    Decidable (CollisionFree hash size leaves inner) :=
  decidable_of_iff (0 < size ∧
      (∀ s ∈ leaves ++ inner, ∀ t ∈ leaves ++ inner, hash s = hash t → s = t) ∧
      (∀ s ∈ leaves ++ inner, (hash s).length = size) ∧ ∀ s ∈ leaves, ∀ t ∈ inner, s ≠ t)
    ⟨fun ⟨h₁, h₂, h₃, h₄⟩ => ⟨h₁, h₂, h₃, fun s hs hi => h₄ s hs s hi rfl⟩,
      fun h => ⟨h.pos, h.injective, h.length, fun s hs _ ht e => h.separate s hs (e ▸ ht)⟩⟩

theorem serializeKvReads_inj {rs' : List KvRead} (h : (serializeKvReads rs).length < 2 ^ 64)
    (heq : serializeKvReads rs = serializeKvReads rs') : rs = rs' := by
  have hback := ReadsInfo.ofField_rawReads h
  rw [heq, ReadsInfo.ofField_rawReads (by rwa [← heq])] at hback
  exact (ReadsInfo.rawReads.inj (some.inj hback)).symm

/-- Pieces of one length are determined by what they add up to. -/
theorem flatten_inj_of_length {size : Nat} (hpos : 0 < size) {xs ys : List Bytes}
    (hx : ∀ x ∈ xs, x.length = size) (hy : ∀ y ∈ ys, y.length = size)
    (h : xs.flatten = ys.flatten) : xs = ys := by
  induction xs generalizing ys with
  | nil =>
    cases ys with
    | nil => rfl
    | cons y ys =>
      have hnil := (append_eq_nil_iff.mp h.symm).1
      have := hy y mem_cons_self
      rw [hnil, length_nil] at this
      omega
  | cons x xs ih =>
    have hxl := hx x mem_cons_self
    cases ys with
    | nil =>
      have hnil := (append_eq_nil_iff.mp h).1
      rw [hnil, length_nil] at hxl
      omega
    | cons y ys =>
      have hyl := hy y mem_cons_self
      obtain ⟨rfl, hrest⟩ := append_inj h (hxl.trans hyl.symm)
      rw [ih (fun z hz => hx z (mem_cons_of_mem _ hz))
        (fun z hz => hy z (mem_cons_of_mem _ hz)) hrest]

theorem map_eq_map_of_map {α β : Type} {f : α → β} {g : α → γ} {xs ys : List α}
    (h : xs.map f = ys.map f) (hfg : ∀ x ∈ xs, ∀ y ∈ ys, f x = f y → g x = g y) :
    xs.map g = ys.map g := by
  induction xs generalizing ys with
  | nil => rw [map_eq_nil_iff.mp h.symm]
  | cons x xs ih =>
    cases ys with
    | nil => cases h
    | cons y ys =>
      obtain ⟨hxy, hrest⟩ := cons.inj h
      rw [map_cons, map_cons, hfg x (by simp) y (by simp) hxy,
        ih hrest fun a ha b hb => hfg a (mem_cons_of_mem _ ha) b (mem_cons_of_mem _ hb)]

structure HashNode.Within (x : HashNode) (leaves inner : List Bytes) : Prop where
  leaves : ∀ s ∈ x.leaves, s ∈ leaves
  inner : ∀ s ∈ x.inner, s ∈ inner

section Determined

variable {size : Nat} {leaves inner : List Bytes} {xs : List HashNode} {x : HashNode}

variable (h : (HashNode.combine hash xs).Within leaves inner)
include h

theorem HashNode.Within.of_combine : ∀ x ∈ xs, x.Within leaves inner :=
  fun x hx => ⟨fun s hs => h.leaves s (mem_leaves_combine xs x hx s hs),
    fun s hs => h.inner s (mem_inner_combine  xs x hx s hs)⟩

theorem HashNode.Within.flatten_mem : (xs.map digest).flatten ∈ inner :=
  h.inner _ (mem_append_right _ (mem_singleton.mpr rfl))

omit h

theorem HashNode.Made.length_digest (hfree : CollisionFree hash size leaves inner)
    (hx : x.Made hash) (hw : x.Within leaves inner) : x.digest.length = size := by
  cases hx with
  | leaf rs => exact hfree.length _ (mem_append_left _ (hw.leaves _ (mem_singleton.mpr rfl)))
  | combine xs _ => exact hfree.length _ (mem_append_right _ hw.flatten_mem)

/-- A hash determines the results under it. -/
theorem HashNode.Made.reads_eq (hfree : CollisionFree hash size leaves inner)
    (hfits : ∀ s ∈ leaves, s.length < 2 ^ 64) (hx : x.Made hash) (hxw : x.Within leaves inner)
    {y : HashNode} (hy : y.Made hash) (hyw : y.Within leaves inner) (h : x.digest = y.digest) :
    x.reads = y.reads := by
  induction hx generalizing y with
  | leaf rs =>
    have hrs := hxw.leaves _ (mem_singleton.mpr rfl)
    cases hy with
    | leaf rs' =>
      have hrs' := hyw.leaves _ (mem_singleton.mpr rfl)
      exact serializeKvReads_inj (hfits _ hrs)
        (hfree.injective _ (mem_append_left _ hrs) _ (mem_append_left _ hrs') h)
    | combine ys _ =>
      have hsame := hfree.injective _ (mem_append_left _ hrs) _
        (mem_append_right _ hyw.flatten_mem) h
      exact absurd (hsame ▸ hyw.flatten_mem) (hfree.separate _ hrs)
  | combine xs hxs ih =>
    cases hy with
    | leaf rs' =>
      have hrs' := hyw.leaves _ (mem_singleton.mpr rfl)
      have hsame := hfree.injective _ (mem_append_right _ hxw.flatten_mem) _
        (mem_append_left _ hrs') h
      exact absurd (hsame ▸ hxw.flatten_mem) (hfree.separate _ hrs')
    | combine ys hys =>
      have hxs' := hxw.of_combine
      have hys' := hyw.of_combine
      have hflat := hfree.injective _ (mem_append_right _ hxw.flatten_mem) _
        (mem_append_right _ hyw.flatten_mem) h
      have hdigests : xs.map digest = ys.map digest := by
        apply flatten_inj_of_length hfree.pos _ _ hflat
        · intro d hd
          obtain ⟨x, hx, rfl⟩ := mem_map.mp hd
          exact (hxs x hx).length_digest hfree (hxs' x hx)
        · intro d hd
          obtain ⟨y, hy, rfl⟩ := mem_map.mp hd
          exact (hys y hy).length_digest hfree (hys' y hy)
      apply congrArg flatten
      apply map_eq_map_of_map hdigests
      intro x hx y hy hd
      exact ih x hx (hxs' x hx) (hys y hy) (hys' y hy) hd

end Determined

/-! ## The trees -/

/-- One more result to the ones hashed together and the ones pending. -/
def chunkStep (deg : Nat) (p : List (List KvRead) × List KvRead) (kv : KvRead) :
    List (List KvRead) × List KvRead :=
  if deg < (p.2 ++ [kv]).length then (p.1 ++ [p.2 ++ [kv]], []) else (p.1, p.2 ++ [kv])

/-- The results that are hashed together, and the ones that are pending. -/
def chunked (deg : Nat) (kvs : List KvRead) : List (List KvRead) × List KvRead :=
  kvs.foldl (chunkStep deg) ([], [])

theorem chunked_concat (kvs : List KvRead) (kv : KvRead) :
    chunked deg (kvs ++ [kv]) = chunkStep deg (chunked deg kvs) kv := by
  rw [chunked, foldl_append]
  rfl

theorem chunked_spec (deg : Nat) (kvs : List KvRead) :
    (chunked deg kvs).1.flatten ++ (chunked deg kvs).2 = kvs ∧
      (∀ rs ∈ (chunked deg kvs).1, rs.length = deg + 1) ∧ (chunked deg kvs).2.length ≤ deg := by
  induction kvs using reverseRecOn with
  | nil => simp [chunked]
  | append_singleton kvs kv ih =>
    obtain ⟨hflat, hfull, hrest⟩ := ih
    rw [chunked_concat, chunkStep]
    split
    · rename_i hlt
      rw [length_append, length_singleton] at hlt
      refine ⟨?_, ?_, by simp⟩
      · conv_rhs => rw [← hflat]
        simp
      · rw [forall_mem_append]
        refine ⟨hfull, ?_⟩
        simp only [mem_singleton, forall_eq, length_append, length_singleton]
        omega
    · rename_i hlt
      refine ⟨?_, hfull, Nat.le_of_not_lt hlt⟩
      conv_rhs => rw [← hflat]
      simp

theorem length_chunked (deg : Nat) (kvs : List KvRead) :
    (chunked deg kvs).1.length = kvs.length / (deg + 1) := by
  obtain ⟨hflat, hfull, hrest⟩ := chunked_spec deg kvs
  have hsum := length_flatMap_of_forall (c := id) hfull
  rw [flatMap_id] at hsum
  have hlen := congrArg length hflat
  rw [length_append, hsum] at hlen
  rw [← hlen, mul_comm, mul_add_div (by omega), div_eq_of_lt (by omega), add_zero]

def forest (hash : Bytes → Bytes) (deg : Nat) (kvs : List KvRead) : List (List HashNode) :=
  pushAll (HashNode.combine hash) deg ((chunked deg kvs).1.map (HashNode.leaf hash))

theorem digest_combine (hash : Bytes → Bytes) (xs : List HashNode) :
    (HashNode.combine hash xs).digest = (computeCombinedHash hash) (xs.map HashNode.digest) := rfl

theorem ResultsHelper.addAll_eq (hash : Bytes → Bytes) (deg : Nat) (kvs : List KvRead) :
    (⟨[], [[]], deg⟩ : ResultsHelper).addAll hash kvs =
      ⟨(chunked deg kvs).2, (forest hash deg kvs).map (map HashNode.digest), deg⟩ := by
  induction kvs using reverseRecOn with
  | nil => rfl
  | append_singleton kvs kv ih =>
    rw [addAll_concat, ih, addResult, forest, forest, chunked_concat, chunkStep]
    split
    · rw [map_append, map_singleton, pushAll_concat,
        ← push_map (digest_combine hash), processPendingResults]
      rfl
    · rfl

/-- The results that are hashed together in the end; there are none up to the degree. -/
def leavesOf (deg : Nat) (kvs : List KvRead) : List (List KvRead) :=
  if (chunked deg kvs).1 = [] then []
  else if (chunked deg kvs).2 = [] then (chunked deg kvs).1
  else (chunked deg kvs).1 ++ [(chunked deg kvs).2]

def finished (hash : Bytes → Bytes) (deg : Nat) (kvs : List KvRead) : List (List HashNode) :=
  complete (HashNode.combine hash) deg
    (pushAll (HashNode.combine hash) deg ((leavesOf deg kvs).map (HashNode.leaf hash)))

theorem summaryOf_eq (hash : Bytes → Bytes) (deg : Nat) (kvs : List KvRead) :
    summaryOf hash deg kvs =
      if (chunked deg kvs).1 = [] then none
      else some ⟨deg, (finished hash deg kvs).length,
        (top (finished hash deg kvs)).map HashNode.digest⟩ := by
  rw [summaryOf, ResultsHelper.addAll_eq, ResultsHelper.done]
  by_cases hnone : (chunked deg kvs).1 = []
  · rw [forest, hnone]
    rfl
  · have hsome : ¬ (ResultsHelper.isEmpty ⟨(chunked deg kvs).2,
        (forest hash deg kvs).map (map HashNode.digest), deg⟩ = true) := by
      intro hempty
      have htree := congrArg top (of_decide_eq_true hempty)
      rw [top_map] at htree
      exact top_pushAll_ne_nil _ deg (by simpa using hnone) (map_eq_nil_iff.mp htree)
    rw [if_neg hnone, if_neg hsome, finished, leavesOf, if_neg hnone]
    dsimp only
    split
    · rw [ResultsHelper.complete, complete_map (digest_combine hash)]
      show some (MerkleSummary.mk _ _ (top _)) = _
      rw [top_map, length_map]
      rfl
    · rw [map_append, map_singleton, pushAll_concat,
        ResultsHelper.processPendingResults]
      show some (MerkleSummary.mk _ (complete _ _ (push _ _
        (HashNode.leaf hash _).digest _)).length (top (complete _ _
        (push _ _ (HashNode.leaf hash _).digest _)))) = _
      rw [push_map (digest_combine hash), complete_map (digest_combine hash), top_map, length_map]
      rfl

/-! ## What the trees stand for -/

theorem leavesOf_eq_nil {kvs : List KvRead} : leavesOf deg kvs = [] ↔ (chunked deg kvs).1 = [] := by
  unfold leavesOf
  split_ifs with h h'
  · exact ⟨fun _ => h, fun _ => rfl⟩
  · exact Iff.rfl
  · exact ⟨fun hnil => absurd hnil (by simp), fun hnil => absurd hnil h⟩

theorem flatten_leavesOf {kvs : List KvRead} (h : (chunked deg kvs).1 ≠ []) :
    (leavesOf deg kvs).flatten = kvs := by
  obtain ⟨hflat, -, -⟩ := chunked_spec deg kvs
  rw [leavesOf, if_neg h]
  split_ifs with hrest
  · rw [hrest, append_nil] at hflat
    exact hflat
  · rw [flatten_append, flatten_singleton]
    exact hflat

theorem chunked_prefix_leavesOf (deg : Nat) (kvs : List KvRead) :
    (chunked deg kvs).1 <+: leavesOf deg kvs := by
  unfold leavesOf
  split_ifs with h h'
  · rw [h]
  · exact prefix_rfl
  · exact prefix_append _ _

theorem chunked_mono {kvs kvs' : List KvRead} (h : kvs <+: kvs') :
    (chunked deg kvs).1 <+: (chunked deg kvs').1 := by
  obtain ⟨more, rfl⟩ := h
  induction more using reverseRecOn with
  | nil => rw [append_nil]
  | append_singleton more kv ih =>
    rw [← append_assoc, chunked_concat, chunkStep]
    split
    · exact ih.trans (prefix_append _ _)
    · exact ih

def leafStrings (deg : Nat) (kvs : List KvRead) : List Bytes :=
  (leavesOf deg kvs).map serializeKvReads

def innerStrings (hash : Bytes → Bytes) (deg : Nat) (kvs : List KvRead) : List Bytes :=
  (top (finished hash deg kvs)).flatMap HashNode.inner

theorem flatMap_leaf (c : HashNode → List γ) (rss : List (List KvRead)) :
    (rss.map (HashNode.leaf hash)).flatMap c = rss.flatMap fun rs => c (HashNode.leaf hash rs) := by
  rw [flatMap_map]

theorem flatMap_reads_finished (hash : Bytes → Bytes) {kvs : List KvRead}
    (h : (chunked deg kvs).1 ≠ []) :
    (top (finished hash deg kvs)).flatMap HashNode.reads = kvs := by
  rw [finished, flatMap_top_complete HashNode.reads_combine
    (pushAll_ne_nil _), contents_pushAll HashNode.reads_combine, flatMap_leaf]
  exact flatMap_id'.trans (flatten_leavesOf h)

variable (hash deg)

variable (kvs : List KvRead)
include kvs

theorem made_finished : ∀ x ∈ top (finished hash deg kvs), x.Made hash := by
  apply forall_top_complete HashNode.Made.combine
  apply forall_pushAll HashNode.Made.combine
  intro x hx
  obtain ⟨rs, -, rfl⟩ := mem_map.mp hx
  exact .leaf rs

theorem made_forest : ∀ x ∈ (forest hash deg kvs).flatten, x.Made hash := by
  apply forall_pushAll HashNode.Made.combine
  intro x hx
  obtain ⟨rs, -, rfl⟩ := mem_map.mp hx
  exact .leaf rs

theorem leaves_finished :
    (top (finished hash deg kvs)).flatMap HashNode.leaves = leafStrings deg kvs := by
  have hcombine : ∀ xs, (HashNode.combine hash xs).leaves = xs.flatMap HashNode.leaves := fun _ => rfl
  rw [finished, flatMap_top_complete hcombine (pushAll_ne_nil _),
    contents_pushAll hcombine, flatMap_leaf]
  exact map_eq_flatMap.symm

theorem within_finished :
    ∀ x ∈ top (finished hash deg kvs),
      x.Within (leafStrings deg kvs) (innerStrings hash deg kvs) := by
  intro x hx
  refine ⟨fun s hs => ?_, fun s hs => mem_flatMap.mpr ⟨x, hx, hs⟩⟩
  rw [← leaves_finished hash]
  exact mem_flatMap.mpr ⟨x, hx, hs⟩

omit kvs

/-- What is hashed on the way is hashed for the finished tree. -/
theorem within_forest {pre kvs : List KvRead} (h : pre <+: kvs) :
    ∀ x ∈ (forest hash deg pre).flatten,
      x.Within (leafStrings deg kvs) (innerStrings hash deg kvs) := by
  have hpre : (chunked deg pre).1.map (HashNode.leaf hash) <+:
      (leavesOf deg kvs).map (HashNode.leaf hash) :=
    ((chunked_mono h).trans (chunked_prefix_leavesOf deg kvs)).map _
  intro x hx
  constructor
  · intro s hs
    obtain ⟨y, hy, hxy⟩ := covered_pushAll HashNode.mem_leaves_combine hpre x hx
    obtain ⟨z, hz, hyz⟩ := covered_complete HashNode.mem_leaves_combine (pushAll_ne_nil _) y hy
    exact (within_finished hash deg kvs z hz).leaves s (hyz s (hxy s hs))
  · intro s hs
    obtain ⟨y, hy, hxy⟩ := covered_pushAll HashNode.mem_inner_combine hpre x hx
    obtain ⟨z, hz, hyz⟩ := covered_complete HashNode.mem_inner_combine (pushAll_ne_nil _) y hy
    exact (within_finished hash deg kvs z hz).inner s (hyz s (hxy s hs))

variable {hash deg}

theorem HashNode.Within.mono {x : HashNode} {leaves inner leaves' inner' : List Bytes}
    (h : x.Within leaves inner) (hl : ∀ s ∈ leaves, s ∈ leaves') (hi : ∀ s ∈ inner, s ∈ inner') :
    x.Within leaves' inner' :=
  ⟨fun s hs => hl s (h.leaves s hs), fun s hs => hi s (h.inner s hs)⟩

theorem length_serializeKvReads_le {rss : List (List KvRead)} (h : rs ∈ rss) :
    (serializeKvReads rs).length ≤ (serializeKvReads rss.flatten).length := by
  obtain ⟨l, r, rfl⟩ := append_of_mem h
  simp only [serializeKvReads, encodeFields, flatten_append, flatten_cons,
    flatMap_append, length_append]
  omega

theorem length_leafStrings {kvs : List KvRead} (h : (serializeKvReads kvs).length < 2 ^ 64) :
    ∀ s ∈ leafStrings deg kvs, s.length < 2 ^ 64 := by
  intro s hs
  obtain ⟨rs, hrs, rfl⟩ := mem_map.mp hs
  have hne : (chunked deg kvs).1 ≠ [] := fun hnil =>
    absurd (leavesOf_eq_nil.mpr hnil ▸ hrs) not_mem_nil
  have hle := length_serializeKvReads_le hrs
  rw [flatten_leavesOf hne] at hle
  exact lt_of_le_of_lt hle h

/-- No collision among what is hashed for two lists of results. -/
def NoCollision (hash : Bytes → Bytes) (size deg : Nat) (kvs kvs' : List KvRead) : Prop :=
  CollisionFree hash size (leafStrings deg kvs ++ leafStrings deg kvs')
    (innerStrings hash deg kvs ++ innerStrings hash deg kvs')

instance (hash : Bytes → Bytes) (size deg : Nat) (kvs kvs' : List KvRead) :
    Decidable (NoCollision hash size deg kvs kvs') :=
  inferInstanceAs (Decidable (CollisionFree ..))

section TwoLists

variable {size : Nat} {kvs kvs' : List KvRead} {m : MerkleSummary}

theorem summaryOf_eq_some (h : summaryOf hash deg kvs = some m) :
    (chunked deg kvs).1 ≠ [] ∧ m = ⟨deg, (finished hash deg kvs).length,
      (top (finished hash deg kvs)).map HashNode.digest⟩ := by
  rw [summaryOf_eq] at h
  split_ifs at h with hnil
  exact ⟨hnil, (some.inj h).symm⟩

/-- What `Done` returns: the raw results as long as nothing was hashed, else the summary. -/
def ResultsHelper.output (hash : Bytes → Bytes) (r : ResultsHelper) :
    List KvRead × Option MerkleSummary :=
  if r.isEmpty then (r.pending, none) else ([], r.done hash)

theorem ResultsHelper.done_ne_none {r : ResultsHelper} (h : r.isEmpty = false) :
    r.done hash ≠ none := by
  simp [done, h]

variable (h : NoCollision hash size deg kvs kvs') (hfits : (serializeKvReads kvs).length < 2 ^ 64)
  (hfits' : (serializeKvReads kvs').length < 2 ^ 64)
include h hfits hfits'

/-- Nodes of the two trees with the same hashes have the same results under them. -/
theorem NoCollision.flatMap_reads_eq {xs ys : List HashNode}
    (hxs : ∀ x ∈ xs, x.Made hash ∧ x.Within (leafStrings deg kvs) (innerStrings hash deg kvs))
    (hys : ∀ y ∈ ys, y.Made hash ∧ y.Within (leafStrings deg kvs') (innerStrings hash deg kvs'))
    (heq : xs.map HashNode.digest = ys.map HashNode.digest) :
    xs.flatMap HashNode.reads = ys.flatMap HashNode.reads := by
  apply congrArg flatten
  apply map_eq_map_of_map heq
  intro x hx y hy hd
  refine HashNode.Made.reads_eq h ?_ (hxs x hx).1 ?_ (hys y hy).1 ?_ hd
  · rw [forall_mem_append]
    exact ⟨length_leafStrings hfits, length_leafStrings hfits'⟩
  · exact (hxs x hx).2.mono (fun _ => mem_append_left _) (fun _ => mem_append_left _)
  · exact (hys y hy).2.mono (fun _ => mem_append_right _) (fun _ => mem_append_right _)

theorem NoCollision.eq_of_summaryOf (hm : summaryOf hash deg kvs = some m)
    (hm' : summaryOf hash deg kvs' = some m) :
    kvs = kvs' := by
  obtain ⟨hne, rfl⟩ := summaryOf_eq_some hm
  obtain ⟨hne', heq⟩ := summaryOf_eq_some hm'
  have hdigests := congrArg MerkleSummary.hashes heq
  have hreads := h.flatMap_reads_eq hfits hfits'
    (fun x hx => ⟨made_finished hash deg kvs x hx, within_finished hash deg kvs x hx⟩)
    (fun y hy => ⟨made_finished hash deg kvs' y hy, within_finished hash deg kvs' y hy⟩) hdigests
  rwa [flatMap_reads_finished hash hne, flatMap_reads_finished hash hne'] at hreads

theorem NoCollision.eq_of_output
    (heq : ((⟨[], [[]], deg⟩ : ResultsHelper).addAll hash kvs).output hash =
      ((⟨[], [[]], deg⟩ : ResultsHelper).addAll hash kvs').output hash) : kvs = kvs' := by
  obtain ⟨-, -, hraw, -⟩ := ResultsHelper.addAll_new hash deg kvs
  obtain ⟨-, -, hraw', -⟩ := ResultsHelper.addAll_new hash deg kvs'
  unfold ResultsHelper.output at heq
  split_ifs at heq with he he' he'
  · rw [hraw he, hraw' he'] at heq
    exact (mk.inj heq).1
  · exact absurd (mk.inj heq).2.symm (ResultsHelper.done_ne_none (by simpa using he'))
  · exact absurd (mk.inj heq).2 (ResultsHelper.done_ne_none (by simpa using he))
  · obtain ⟨m, hm⟩ : ∃ m, summaryOf hash deg kvs = some m :=
      ne_none_iff_exists'.mp (ResultsHelper.done_ne_none (by simpa using he))
    exact h.eq_of_summaryOf hfits hfits' hm ((mk.inj heq).2.symm.trans hm)

omit h hfits hfits'

/-- The top level of a summary is not empty and within the degree. -/
theorem length_hashes_summaryOf (hdeg : 2 ≤ deg) (h : summaryOf hash deg kvs = some m) :
    1 ≤ m.hashes.length ∧ m.hashes.length ≤ deg := by
  obtain ⟨hne, rfl⟩ := summaryOf_eq_some h
  rw [length_map]
  refine ⟨length_pos_iff.mpr fun htop => ?_, length_top_complete_le (by omega) _⟩
  have hreads := flatMap_reads_finished hash hne
  rw [htop, flatMap_nil] at hreads
  exact hne (hreads ▸ rfl)

/-- The output stands for the list of results, and a summary has at its top between one hash
and as many as the degree. -/
theorem output_eq_iff {r : ResultsHelper} (hr : ResultsHelper.new deg = some r)
    (h : NoCollision hash size deg kvs kvs')
    (hfits : (serializeKvReads kvs).length < 2 ^ 64)
    (hfits' : (serializeKvReads kvs').length < 2 ^ 64) :
    ((r.addAll hash kvs).output hash = (r.addAll hash kvs').output hash ↔ kvs = kvs') ∧
      ∀ m, ((r.addAll hash kvs).output hash).2 = some m →
        1 ≤ m.hashes.length ∧ m.hashes.length ≤ deg := by
  unfold ResultsHelper.new at hr
  split_ifs at hr with hdeg
  cases hr
  refine ⟨⟨h.eq_of_output hfits hfits', fun heq => by rw [heq]⟩, fun m hm => ?_⟩
  unfold ResultsHelper.output at hm
  split_ifs at hm
  exact length_hashes_summaryOf (by omega) hm

/-- Three results against four, at degree 2. -/
theorem output_eq_iff_three_four :
    NoCollision sha256 32 2 ([1, 2, 3].map fun k => ⟨[k], none⟩)
        ([1, 2, 3, 4].map fun k => ⟨[k], none⟩) ∧
      ∃ r, ResultsHelper.new 2 = some r ∧
        ∀ m, ((r.addAll sha256 ([1, 2, 3].map fun k => ⟨[k], none⟩)).output sha256).2 = some m →
          1 ≤ m.hashes.length ∧ m.hashes.length ≤ 2 := by
  have hfree : NoCollision sha256 32 2 ([1, 2, 3].map fun k => ⟨[k], none⟩)
      ([1, 2, 3, 4].map fun k => ⟨[k], none⟩) := by decide +kernel
  exact ⟨hfree, _, rfl, (output_eq_iff rfl hfree (by decide) (by decide)).2⟩

end TwoLists

end FabricOev.Ledger
