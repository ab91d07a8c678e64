import FabricOev.Ledger.MerkleTrees

/-!
# Hash-based and raw phantom checks

`rangeQueryHashValidator` compares a tree under construction with a finished one at the top level of
the latter. Its index of the last match is not reset when the tree gets a level more: it is then
beyond the one hash of the new level. That happens exactly if the recorded results fill their top
level and the new ones go on to fill a level above it; else the validator says what comparing the
results says.
-/

namespace FabricOev.Ledger

open Go Lib List LevelTree ResultsHelper HashNode Result Nat

variable {hash : Bytes → Bytes} {deg : Nat}

theorem ResultsHelper.bounded_addResult (hash : Bytes → Bytes) {r : ResultsHelper}
    (hdeg : 1 ≤ r.maxDegree) (h : LevelTree.Bounded r.maxDegree r.tree) (kv : KvRead) :
    LevelTree.Bounded r.maxDegree (r.addResult hash kv).tree := by
  obtain ht | ⟨x, ht⟩ := r.addResult_tree hash kv
  · rw [ht]
    exact h
  · rw [ht]
    exact h.push hdeg x

section Step

variable {m : MerkleSummary} {e : GoString × VersionedValue} {r : ResultsHelper} {k : Nat}

theorem Compared.take_agrees (hk : Compared m r.tree k) (hne : r.tree ≠ []) (hbelow : Below r.tree m)
    (hlen : (r.addResult hash (readOf e)).tree.length = m.maxLevel) :
    (top (r.addResult hash (readOf e)).tree).take k <+: m.hashes := by
  obtain ⟨-, rfl⟩ | ⟨hlen', rfl⟩ := hk
  · exact nil_prefix
  · obtain hlt | ⟨-, hpre⟩ := grows_addResult hash hne (readOf e)
    · omega
    · obtain hlt | ⟨-, htop⟩ := hbelow
      · omega
      · rwa [← prefix_iff_eq_take.mp hpre]

theorem validateHashes_of_mismatch (hne : r.tree ≠ []) (hk : Compared m r.tree k)
    (hbelow : Below r.tree m) (hlen : (r.addResult hash (readOf e)).tree.length = m.maxLevel)
    (hnot : ¬ top (r.addResult hash (readOf e)).tree <+: m.hashes)
    (rs : List (GoString × VersionedValue)) :
    validateHashes hash m (e :: rs) r k = .ok false := by
  have htake := hk.take_agrees hne hbelow hlen
  rw [validateHashes_cons]
  generalize hcount : top (r.addResult hash (readOf e)).tree = top at *
  have hnext := hk.addResult hne hlen
  rw [hcount] at hnext
  obtain rfl | hk' := hnext
  · rw [take_length] at htake
    exact absurd htake hnot
  · rw [if_neg (by omega), if_neg (by omega)]
    split
    · rfl
    · obtain ⟨x, hx⟩ : ∃ x, top[k]? = some x := ⟨_, getElem?_eq_getElem (by omega)⟩
      obtain ⟨y, hy⟩ : ∃ y, m.hashes[k]? = some y := ⟨_, getElem?_eq_getElem (by omega)⟩
      rw [index_eq_ok.mpr hx, index_eq_ok.mpr hy]
      refine if_neg ?_
      intro hxy
      apply hnot
      -- the hashes so far with one more that is the same
      have htop : top = top.take k ++ [x] := by
        conv_lhs => rw [← take_length (l := top), ← hk', take_add_one, hx]
        rfl
      have hsame : top.take k = m.hashes.take k := by
        rw [prefix_iff_eq_take.mp htake, length_take, min_eq_left (by omega)]
      have hhashes : m.hashes.take (k + 1) = top.take k ++ [x] := by
        rw [take_add_one, hy, hsame, hxy]
        rfl
      rw [htop, ← hhashes]
      exact take_prefix _ _

theorem validateHashes_of_outgrown (hdeg : 2 ≤ r.maxDegree) (hne : r.tree ≠ [])
    (hb : LevelTree.Bounded r.maxDegree r.tree) (hk : Compared m r.tree k)
    (hbelow : Below r.tree m) (hlen : m.maxLevel < (r.addResult hash (readOf e)).tree.length)
    (rs : List (GoString × VersionedValue)) :
    validateHashes hash m (e :: rs) r k = panicWith .indexOutOfRange := by
  obtain ht | ⟨x, ht⟩ := r.addResult_tree hash (readOf e)
  · obtain hlt | ⟨heq, -⟩ := hbelow
    · rw [ht] at hlen
      omega
    · rw [ht] at hlen
      omega
  · obtain ⟨hlen', -⟩ | ⟨hlen', y, htop⟩ := push_top (computeCombinedHash hash) r.maxDegree x hne
    · rw [ht, hlen'] at hlen
      obtain hlt | ⟨heq, -⟩ := hbelow
      · omega
      · omega
    · rw [ht, hlen'] at hlen
      obtain hlt | ⟨heq, hpre⟩ := hbelow
      · omega
      · obtain ⟨hlt, -⟩ | ⟨-, hk⟩ := hk
        · omega
        -- all levels are full, and all hashes of the top have been compared
        have hfull : (top r.tree).length = r.maxDegree := by
          apply full_of_length_push hb (x := x) (by rw [hlen']; omega)
          exact top_mem hne
        have hle := hpre.length_le
        rw [validateHashes_cons, ht, htop, length_singleton, if_neg (by omega), if_neg (by omega),
          if_neg (by omega)]
        have hnone : [y][k]? = none := getElem?_eq_none (by rw [length_singleton]; omega)
        rw [index, hnone]
        rfl

end Step

/-- At some result the tree gets higher than the recorded one. -/
def Outgrows (hash : Bytes → Bytes) (m : MerkleSummary) (r : ResultsHelper)
    (kvs : List KvRead) : Prop :=
  ∃ pre kv post, kvs = pre ++ kv :: post ∧ Below (r.addAll hash pre).tree m ∧
    m.maxLevel < (r.addAll hash (pre ++ [kv])).tree.length

section Run

variable {m : MerkleSummary} {r : ResultsHelper}

theorem Below.length_le {t : List (List Bytes)} (h : Below t m) : t.length ≤ m.maxLevel := by
  obtain h | ⟨h, -⟩ := h
  · exact h.le
  · exact h.le

theorem outgrows_cons {kv : KvRead} {kvs : List KvRead} :
    Outgrows hash m r (kv :: kvs) ↔
      (Below r.tree m ∧ m.maxLevel < (r.addResult hash kv).tree.length) ∨
        Outgrows hash m (r.addResult hash kv) kvs := by
  constructor
  · intro h
    obtain ⟨pre, kv', post, heq, hbelow, hlen⟩ := h
    cases pre with
    | nil =>
      obtain ⟨rfl, -⟩ := cons.inj heq
      exact .inl ⟨hbelow, hlen⟩
    | cons _ pre =>
      obtain ⟨rfl, hrest⟩ := cons.inj heq
      exact .inr ⟨pre, kv', post, hrest, hbelow, hlen⟩
  · intro h
    obtain ⟨hbelow, hlen⟩ | ⟨pre, kv', post, rfl, hbelow, hlen⟩ := h
    · exact ⟨[], kv, kvs, rfl, hbelow, hlen⟩
    · exact ⟨kv :: pre, kv', post, rfl, hbelow, hlen⟩

/-- The validator stops with an index out of range, or compares the summaries. -/
theorem validateHashes_eq (hash : Bytes → Bytes) (hdeg : 2 ≤ r.maxDegree) (hne : r.tree ≠ [])
    (hb : LevelTree.Bounded r.maxDegree r.tree) {k : Nat} (hk : Compared m r.tree k)
    (hbelow : Below r.tree m) (rs : List (GoString × VersionedValue)) :
    (Outgrows hash m r (rs.map readOf) →
        validateHashes hash m rs r k = panicWith .indexOutOfRange) ∧
      (¬ Outgrows hash m r (rs.map readOf) → validateHashes hash m rs r k =
        .ok (decide ((r.addAll hash (rs.map readOf)).done hash = some m))) := by
  induction rs generalizing r k with
  | nil =>
    refine ⟨fun h => ?_, fun _ => rfl⟩
    obtain ⟨pre, kv, post, heq, -⟩ := h
    cases pre <;> cases heq
  | cons e rs ih =>
    rw [map_cons, outgrows_cons]
    have hne' : (r.addResult hash (readOf e)).tree ≠ [] := addResult_tree_ne_nil hne _
    have hmax := r.addResult_maxDegree hash (readOf e)
    have hb' := bounded_addResult hash (by omega) hb (readOf e)
    obtain ⟨hfin, hrest⟩ := grows_addAll hash hne' (rs.map readOf)
    by_cases hnext : Below (r.addResult hash (readOf e)).tree m
    · obtain ⟨k', hk', hstep⟩ := validateHashes_of_below hne hk hnext
      have hle := hnext.length_le
      obtain ⟨hout, hin⟩ := ih (by rwa [hmax]) hne' (by rwa [hmax]) hk' hnext
      rw [hstep]
      constructor
      · intro h
        obtain ⟨-, hlt⟩ | h := h
        · omega
        · exact hout h
      · intro h
        exact hin fun h' => h (.inr h')
    · -- nothing after this result comes below the summary again
      have hlater : ¬ Outgrows hash m (r.addResult hash (readOf e)) (rs.map readOf) := by
        intro h
        obtain ⟨pre, kv, post, -, hpre, -⟩ := h
        exact hnext ((grows_addAll hash hne' pre).2.below hpre)
      have hdone : (r.addAll hash (readOf e :: rs.map readOf)).done hash ≠ some m := fun h =>
        hnext (hrest.below (below_of_done hfin h))
      by_cases hlt : m.maxLevel < (r.addResult hash (readOf e)).tree.length
      · refine ⟨fun _ => validateHashes_of_outgrown hdeg hne hb hk hbelow hlt rs, fun h => ?_⟩
        exact absurd (.inl ⟨hbelow, hlt⟩) h
      · have hlen : (r.addResult hash (readOf e)).tree.length = m.maxLevel := by
          by_contra hlen
          exact hnext (.inl (by omega))
        have hnot : ¬ top (r.addResult hash (readOf e)).tree <+: m.hashes :=
          fun h => hnext (.inr ⟨hlen, h⟩)
        constructor
        · intro h
          obtain ⟨-, h⟩ | h := h
          · exact absurd h hlt
          · exact absurd h hlater
        · intro _
          rw [validateHashes_of_mismatch hne hk hbelow hlen hnot, decide_eq_false hdone]

end Run

/-! ## When the tree outgrows the recorded one -/

/-- The first results fill the top level of their tree, and the second go on to one more. -/
def Overruns (deg : Nat) (kvs kvs' : List KvRead) : Prop :=
  ∃ l, 1 ≤ l ∧ kvs.length = deg * (deg + 1) ^ l ∧ kvs <+: kvs' ∧ (deg + 1) ^ (l + 1) ≤ kvs'.length

theorem chunked_ne_nil_iff {kvs : List KvRead} : (chunked deg kvs).1 ≠ [] ↔ deg < kvs.length := by
  rw [ne_eq, ← length_eq_zero_iff, length_chunked, Nat.div_eq_zero_iff]
  omega

section Sizes

variable {kvs : List KvRead} {l : Nat}

/-- The sizes of the levels are the digits of the number of leaves. -/
theorem map_length_forest (hash : Bytes → Bytes) (hdeg : 1 ≤ deg) (h : deg < kvs.length) :
    (forest hash deg kvs).map length = digits (deg + 1) (kvs.length / (deg + 1)) := by
  have hne : (chunked deg kvs).1.map (leaf hash) ≠ [] :=
    fun hnil => chunked_ne_nil_iff.mpr h (map_eq_nil_iff.mp hnil)
  rw [forest, map_length_pushAll _ hdeg hne, length_map, length_chunked]

theorem length_forest (hash : Bytes → Bytes) (hdeg : 1 ≤ deg)
    (hle : (deg + 1) ^ (l + 1) ≤ kvs.length) (hlt : kvs.length < (deg + 1) ^ (l + 2)) :
    (forest hash deg kvs).length = l + 1 := by
  have hpow : deg + 1 ≤ (deg + 1) ^ (l + 1) := Nat.le_self_pow (by omega) _
  have hdiv : (deg + 1) ^ l ≤ kvs.length / (deg + 1) := by
    rw [le_div_iff_mul_le (by omega), ← pow_succ]
    exact hle
  have hdiv' : kvs.length / (deg + 1) < (deg + 1) ^ (l + 1) := by
    rw [div_lt_iff_lt_mul (by omega), ← pow_succ]
    exact hlt
  have hpos : 0 < (deg + 1) ^ l := Nat.pow_pos (by omega)
  rw [← length_map (f := length), map_length_forest hash hdeg (by omega),
    length_digits _ _ (by omega) (by omega), log_eq_of_pow_le_of_lt_pow hdiv hdiv']

theorem length_reads_top (hdeg : 1 ≤ deg) {x : HashNode} (hx : x ∈ top (forest hash deg kvs)) :
    x.reads.length = (deg + 1) ^ (forest hash deg kvs).length := by
  have huniform : LevelTree.Uniform reads deg (deg + 1) (forest hash deg kvs) := by
    apply uniform_pushAll hdeg reads_combine
    intro y hy
    obtain ⟨rs, hrs, rfl⟩ := mem_map.mp hy
    exact (chunked_spec deg kvs).2.1 rs hrs
  have hmul := huniform.top x hx
  rw [mul_comm] at hmul
  exact Nat.eq_of_mul_eq_mul_left (by omega) hmul

variable (hash deg kvs) in
theorem reads_top_first : (top (forest hash deg kvs)).flatMap HashNode.reads <+: kvs := by
  have hcontents : contents reads (forest hash deg kvs) = (chunked deg kvs).1.flatten := by
    rw [forest, contents_pushAll reads_combine, flatMap_leaf]
    exact flatMap_id'
  refine (flatMap_top_first _).trans ?_
  rw [hcontents]
  exact ⟨_, (chunked_spec deg kvs).1⟩

/-- Results that fill the top level exactly leave a tree that is complete. -/
theorem finished_of_full (hash : Bytes → Bytes) (hdeg : 1 ≤ deg)
    (hlen : kvs.length = deg * (deg + 1) ^ (l + 1)) :
    finished hash deg kvs = forest hash deg kvs ∧ (forest hash deg kvs).length = l + 1 ∧
      (top (forest hash deg kvs)).length = deg := by
  have hdiv : kvs.length / (deg + 1) = (deg + 1) ^ l * deg := by
    rw [hlen, pow_succ, ← Nat.mul_assoc, Nat.mul_div_cancel _ (by omega), Nat.mul_comm]
  have hpos : 0 < (deg + 1) ^ l := Nat.pow_pos (by omega)
  have hlong : deg < kvs.length := by
    rw [hlen, pow_succ]
    have hmul := mul_le_mul hdeg (mul_le_mul_right (deg + 1) (succ_le_of_lt hpos))
    omega
  have hrest : (chunked deg kvs).2 = [] := by
    obtain ⟨hflat, hfull, -⟩ := chunked_spec deg kvs
    have hsum := length_flatMap_of_forall (c := id) hfull
    rw [flatMap_id, length_chunked, hdiv] at hsum
    have hall := congrArg length hflat
    rw [length_append, hsum, hlen, pow_succ, mul_comm ((deg + 1) ^ l) deg, mul_assoc] at hall
    exact length_eq_zero_iff.mp (by omega)
  have hdigits := map_length_forest hash hdeg hlong
  rw [hdiv, digits_base_pow_mul (by omega) hdeg, digits_of_lt _ _ (by omega) (by omega)] at hdigits
  obtain ⟨top, htop, hforest⟩ := eq_of_map_length hdigits
  refine ⟨?_, ?_, ?_⟩
  · rw [finished, leavesOf, if_neg (chunked_ne_nil_iff.mpr hlong), if_pos hrest]
    show complete _ _ (forest hash deg kvs) = _
    rw [hforest, complete_of_empty l (by omega)]
  · rw [hforest, length_append, length_replicate, length_singleton]
  · rw [hforest]
    simpa [LevelTree.top] using htop

end Sizes

section Growth

variable {m : MerkleSummary} {size : Nat} {kvs kvs' : List KvRead} {pre : List KvRead}
  {kv : KvRead}

variable (hash deg kvs)

theorem tree_addAll :
    ((⟨[], [[]], deg⟩ : ResultsHelper).addAll hash kvs).tree =
      (forest hash deg kvs).map (map HashNode.digest) := by
  rw [addAll_eq]

theorem top_addAll :
    top ((⟨[], [[]], deg⟩ : ResultsHelper).addAll hash kvs).tree =
      (top (forest hash deg kvs)).map HashNode.digest := by
  rw [tree_addAll]
  exact top_map _

theorem length_addAll :
    ((⟨[], [[]], deg⟩ : ResultsHelper).addAll hash kvs).tree.length =
      (forest hash deg kvs).length := by
  rw [tree_addAll, length_map]

theorem forest_ne_nil :
    forest hash deg kvs ≠ [] := pushAll_ne_nil _

variable {hash deg kvs}

/-- A result that adds a level to the tree finds all levels full. -/
theorem full_of_length_forest (hdeg : 1 ≤ deg)
    (h : (forest hash deg pre).length < (forest hash deg (pre ++ [kv])).length) :
    (forest hash deg (pre ++ [kv])).length = (forest hash deg pre).length + 1 ∧
      (top (forest hash deg pre)).length = deg := by
  have hstep : forest hash deg (pre ++ [kv]) = push (HashNode.combine hash) deg
      (leaf hash ((chunked deg pre).2 ++ [kv])) (forest hash deg pre) := by
    rw [forest, forest, chunked_concat, chunkStep] at h ⊢
    split_ifs at h ⊢
    · rw [map_append, map_singleton, pushAll_concat]
    · exact absurd h (lt_irrefl _)
  rw [hstep] at h ⊢
  refine ⟨le_antisymm (length_push_le _ _) h, ?_⟩
  exact full_of_length_push (bounded_pushAll _ hdeg _) h _ (top_mem (forest_ne_nil hash deg pre))

/-- A tree that gets a level more has as many results as fill that level. -/
theorem length_of_outgrown (hdeg : 1 ≤ deg)
    (h : (forest hash deg pre).length < (forest hash deg (pre ++ [kv])).length) :
    (deg + 1) ^ ((forest hash deg pre).length + 1) ≤ pre.length + 1 := by
  obtain ⟨hnext, -⟩ := full_of_length_forest hdeg h
  obtain ⟨x, hx⟩ : ∃ x, x ∈ top (forest hash deg (pre ++ [kv])) := by
    apply exists_mem_of_ne_nil
    apply top_pushAll_ne_nil
    intro hnil
    rw [forest, hnil] at hnext
    have := length_pos_iff.mpr (forest_ne_nil hash deg pre)
    simp only [pushAll, foldl_nil, length_singleton] at hnext
    omega
  rw [← hnext, ← length_reads_top hdeg hx]
  have hsub := (sublist_flatten_of_mem (mem_map_of_mem (f := reads) hx)).length_le
  have hall := (reads_top_first hash deg (pre ++ [kv])).length_le
  rw [length_append, length_singleton] at hall
  exact hsub.trans hall

variable {l : Nat}

/-- A top level that is full stays as it is until there is a level above it. -/
theorem top_of_full (hdeg : 1 ≤ deg) (hlen : kvs.length = deg * (deg + 1) ^ (l + 1))
    (hsub : kvs <+: pre) (hheight : (forest hash deg pre).length = l + 1) :
    top ((⟨[], [[]], deg⟩ : ResultsHelper).addAll hash pre).tree =
      top ((⟨[], [[]], deg⟩ : ResultsHelper).addAll hash kvs).tree := by
  obtain ⟨-, hlevels, htop⟩ := finished_of_full hash hdeg hlen
  obtain ⟨more, hmore⟩ := hsub
  have hgrows := (grows_addAll hash (grows_addAll hash
    (r := ⟨[], [[]], deg⟩) (by simp) kvs).1 more).2
  rw [← addAll_append, hmore] at hgrows
  obtain hlt | ⟨-, hagree⟩ := hgrows
  · rw [length_addAll, length_addAll] at hlt
    omega
  · refine (hagree.eq_of_length_le ?_).symm
    rw [top_addAll, top_addAll, length_map, length_map, htop]
    exact bounded_pushAll _ hdeg _ _ (top_mem (forest_ne_nil hash deg _))

/-- They fill the recorded level with recorded hashes and go on to the next. -/
theorem outgrows_iff (hdeg : 2 ≤ deg) (hl : m.maxLevel = l + 1) :
    Outgrows hash m ⟨[], [[]], deg⟩ kvs ↔ (deg + 1) ^ (l + 2) ≤ kvs.length ∧
      top ((⟨[], [[]], deg⟩ : ResultsHelper).addAll hash
        (kvs.take (deg * (deg + 1) ^ (l + 1)))).tree <+: m.hashes := by
  have hpow : 0 < (deg + 1) ^ (l + 1) := Nat.pow_pos (by omega)
  have hstep : (deg + 1) ^ (l + 2) = deg * (deg + 1) ^ (l + 1) + (deg + 1) ^ (l + 1) := by
    rw [pow_succ, mul_comm, succ_mul]
  have hmul : (deg + 1) ^ (l + 1) ≤ deg * (deg + 1) ^ (l + 1) := Nat.le_mul_of_pos_left _ (by omega)
  constructor
  · intro h
    obtain ⟨pre, kv, post, hsplit, hbelow, hlen⟩ := h
    have hle := hbelow.length_le
    rw [length_addAll] at hlen hle
    have hgrown := lt_of_le_of_lt hle hlen
    obtain ⟨hnext, -⟩ := full_of_length_forest (by omega) hgrown
    have hheight : (forest hash deg pre).length = l + 1 := by omega
    have hmany := length_of_outgrown (by omega) hgrown
    rw [hheight] at hmany
    have hall : kvs.length = pre.length + (post.length + 1) := by
      rw [hsplit, length_append, length_cons]
    have hmany' : (deg + 1) ^ (l + 2) ≤ pre.length + 1 := hmany
    have hlenTake : (kvs.take (deg * (deg + 1) ^ (l + 1))).length = deg * (deg + 1) ^ (l + 1) := by
      rw [length_take, min_eq_left (by omega)]
    have hsub : kvs.take (deg * (deg + 1) ^ (l + 1)) <+: pre :=
      prefix_of_prefix_length_le ( take_prefix _ _) ⟨_, hsplit.symm⟩ (by omega)
    refine ⟨by omega, ?_⟩
    rw [← top_of_full (by omega) hlenTake hsub hheight]
    obtain hlt | ⟨-, hagree⟩ := hbelow
    · rw [length_addAll] at hlt
      omega
    · exact hagree
  · intro h
    obtain ⟨hlong, hagree⟩ := h
    -- the results before the one that fills the new level
    obtain ⟨kv, hkv⟩ : ∃ kv, kvs[(deg + 1) ^ (l + 2) - 1]? = some kv :=
      ⟨_, getElem?_eq_getElem (by omega)⟩
    have hlast : kvs.take ((deg + 1) ^ (l + 2) - 1) ++ [kv] = kvs.take ((deg + 1) ^ (l + 2)) := by
      have hsucc := take_add_one (l := kvs) (i := (deg + 1) ^ (l + 2) - 1)
      rw [hkv, Nat.sub_add_cancel (by omega)] at hsucc
      exact hsucc.symm
    have hprelen : (kvs.take ((deg + 1) ^ (l + 2) - 1)).length = (deg + 1) ^ (l + 2) - 1 := by
      rw [length_take, min_eq_left (by omega)]
    have hheight : (forest hash deg (kvs.take ((deg + 1) ^ (l + 2) - 1))).length = l + 1 :=
      length_forest hash (by omega) (by omega) (by omega)
    have hlenTake : (kvs.take (deg * (deg + 1) ^ (l + 1))).length = deg * (deg + 1) ^ (l + 1) := by
      rw [length_take, min_eq_left (by omega)]
    refine ⟨kvs.take ((deg + 1) ^ (l + 2) - 1), kv, kvs.drop ((deg + 1) ^ (l + 2)), ?_, ?_, ?_⟩
    · rw [← singleton_append, ← append_assoc, hlast, take_append_drop]
    · right
      rw [length_addAll, hheight, hl]
      refine ⟨rfl, ?_⟩
      rw [top_of_full (by omega) hlenTake _ hheight]
      · exact hagree
      · exact prefix_of_prefix_length_le ( take_prefix _ _) ( take_prefix _ _) (by omega)
    · rw [length_addAll, hlast, hl]
      have hlen : (kvs.take ((deg + 1) ^ (l + 2))).length = (deg + 1) ^ (l + 2) := by
        rw [length_take, min_eq_left hlong]
      rw [length_forest hash (by omega) (l := l + 1) (by rw [hlen])
        (by rw [hlen]; exact Nat.pow_lt_pow_right (by omega) (by omega))]
      exact lt_succ_self _

theorem overruns_of_outgrows (hdeg : 2 ≤ deg) (hm : summaryOf hash deg kvs = some m)
    (hfree : NoCollision hash size deg kvs kvs') (hfits : (serializeKvReads kvs).length < 2 ^ 64)
    (hfits' : (serializeKvReads kvs').length < 2 ^ 64)
    (h : Outgrows hash m ⟨[], [[]], deg⟩ kvs') : Overruns deg kvs kvs' := by
  obtain ⟨hne, hsummary⟩ := summaryOf_eq_some hm
  have hpos : 1 ≤ (finished hash deg kvs).length :=
    length_pos_iff.mpr (complete_ne_nil (pushAll_ne_nil _))
  obtain ⟨l, hl⟩ : ∃ l, m.maxLevel = l + 1 :=
    ⟨(finished hash deg kvs).length - 1, by rw [hsummary]; exact (Nat.sub_add_cancel hpos).symm⟩
  obtain ⟨hlong, hagree⟩ := (outgrows_iff hdeg hl).mp h
  have hstep : (deg + 1) ^ (l + 2) = deg * (deg + 1) ^ (l + 1) + (deg + 1) ^ (l + 1) := by
    rw [pow_succ, mul_comm, succ_mul]
  generalize hpre : kvs'.take (deg * (deg + 1) ^ (l + 1)) = pre at hagree
  have hsub : pre <+: kvs' := hpre ▸ take_prefix _ _
  have hlen : pre.length = deg * (deg + 1) ^ (l + 1) := by
    rw [← hpre, length_take, min_eq_left (by omega)]
  obtain ⟨-, hheight, hfull⟩ := finished_of_full hash (by omega) hlen
  -- the top of the tree is all of the recorded hashes
  have htop : (top (finished hash deg kvs)).map digest =
      (top (forest hash deg pre)).map digest := by
    rw [top_addAll, hsummary] at hagree
    refine (hagree.eq_of_length_le ?_).symm
    rw [length_map, length_map, hfull]
    exact length_top_complete_le (by omega) _
  have hreads := hfree.flatMap_reads_eq hfits hfits'
    (fun x hx => ⟨made_finished hash deg kvs x hx, within_finished hash deg kvs x hx⟩)
    (fun y hy => ⟨made_forest hash deg pre y (mem_flatten_of_mem_top hy),
      within_forest hash deg hsub y (mem_flatten_of_mem_top hy)⟩) htop
  rw [flatMap_reads_finished hash hne] at hreads
  refine ⟨l + 1, by omega, ?_, ?_, hlong⟩
  · rw [hreads, length_flatMap_of_forall fun x hx => length_reads_top (by omega) hx, hfull, hheight]
  · rw [hreads]
    exact (reads_top_first hash deg pre).trans hsub

theorem outgrows_of_overruns (hdeg : 2 ≤ deg) (hm : summaryOf hash deg kvs = some m)
    (h : Overruns deg kvs kvs') : Outgrows hash m ⟨[], [[]], deg⟩ kvs' := by
  obtain ⟨l', hl, hlen, hpre, hlong⟩ := h
  obtain ⟨l, rfl⟩ : ∃ l, l' = l + 1 := ⟨l' - 1, by omega⟩
  obtain ⟨-, rfl⟩ := summaryOf_eq_some hm
  obtain ⟨hfin, hlevels, -⟩ := finished_of_full hash (by omega) hlen
  rw [outgrows_iff hdeg (by rw [hfin, hlevels]), ← hlen, ← prefix_iff_eq_take.mp hpre, hfin,
    top_addAll]
  exact ⟨hlong, prefix_rfl⟩

end Growth

theorem validateResults_map_readOf (R S : List (GoString × VersionedValue)) :
    validateResults (R.map readOf) S = .ok (decide (S.map readOf = R.map readOf)) := by
  have hok : ∃ b, validateResults (R.map readOf) S = .ok b := by
    induction R generalizing S with
    | nil => exact ⟨_, rfl⟩
    | cons r R ih =>
      cases S with
      | nil => exact ⟨_, rfl⟩
      | cons s S =>
        rw [map_cons, validateResults_cons, if_neg fun h => nomatch h.2]
        split
        · exact ih S
        · exact ⟨_, rfl⟩
  obtain ⟨b, hb⟩ := hok
  rw [hb]
  have htrue : validateResults (R.map readOf) S = .ok true ↔ S.map readOf = R.map readOf :=
    validateResults_eq_true
  rw [hb] at htrue
  cases b with
  | true => rw [decide_eq_true (htrue.mp rfl)]
  | false =>
    rw [decide_eq_false]
    intro h
    cases htrue.mpr h

/-- The validators agree, and tell whether the results are the recorded ones, unless the
results overrun the recorded tree. -/
theorem hash_check_agrees_iff (size : Nat) {helper : ResultsHelper}
    {R S : List (GoString × VersionedValue)} (hnew : ResultsHelper.new deg = some helper)
    (hlong : deg < R.length) (hfree : NoCollision hash size deg (R.map readOf) (S.map readOf))
    (hfits : (serializeKvReads (R.map readOf)).length < 2 ^ 64)
    (hfits' : (serializeKvReads (S.map readOf)).length < 2 ^ 64) :
    ∃ m, summaryOf hash deg (R.map readOf) = some m ∧
      ((∃ b, validateHashes hash m S helper 0 = .ok b ∧ validateResults (R.map readOf) S = .ok b ∧
          (b = true ↔ S.map readOf = R.map readOf)) ↔
        ¬ Overruns deg (R.map readOf) (S.map readOf)) := by
  have hdeg : 2 ≤ deg := by
    by_contra hlt
    rw [new, if_pos (by omega)] at hnew
    cases hnew
  rw [new, if_neg (by omega)] at hnew
  cases hnew
  have hchunks : (chunked deg (R.map readOf)).1 ≠ [] := by
    rw [chunked_ne_nil_iff, length_map]
    exact hlong
  obtain ⟨m, hm⟩ : ∃ m, summaryOf hash deg (R.map readOf) = some m := by
    rw [summaryOf_eq, if_neg hchunks]
    exact ⟨_, rfl⟩
  refine ⟨m, hm, ?_⟩
  have hne : (⟨[], [[]], deg⟩ : ResultsHelper).tree ≠ [] := by simp
  have hbounded : LevelTree.Bounded deg (⟨[], [[]], deg⟩ : ResultsHelper).tree := by
    intro l hl
    obtain rfl := mem_singleton.mp hl
    exact zero_le _
  -- a new helper is below every summary
  obtain ⟨hfin, hgrows⟩ := grows_addAll hash hne (R.map readOf)
  have hbelow := hgrows.below (below_of_done hfin hm)
  have hk : Compared m (⟨[], [[]], deg⟩ : ResultsHelper).tree 0 := by
    obtain hlt | ⟨heq, -⟩ := hbelow
    · exact .inl ⟨hlt, rfl⟩
    · exact .inr ⟨heq, rfl⟩
  obtain ⟨hout, hin⟩ := validateHashes_eq hash hdeg hne hbounded hk hbelow S
  constructor
  · intro h hover
    obtain ⟨b, hb, -⟩ := h
    rw [hout (outgrows_of_overruns hdeg hm hover)] at hb
    cases hb
  · intro hover
    rw [hin fun h => hover (overruns_of_outgrows hdeg hm hfree hfits hfits' h),
      validateResults_map_readOf]
    have hsame : (addAll hash ⟨[], [[]], deg⟩ (S.map readOf)).done hash = some m ↔
        S.map readOf = R.map readOf := by
      constructor
      · intro h
        exact (hfree.eq_of_summaryOf hfits hfits' hm h).symm
      · intro h
        rw [h]
        exact hm
    exact ⟨_, congrArg _ (decide_eq_decide.mpr hsame), rfl, decide_eq_true_iff⟩

def numbered (n : Nat) : List (GoString × VersionedValue) :=
  (range n).map fun i => ([UInt8.ofNat (i + 1)], ⟨[1], ⟨1, 0⟩⟩)

/-- Seven recorded results against eight that begin with them. -/
theorem hash_check_eight :
    ∃ m, summaryOf sha256 2 ((numbered 7).map readOf) = some m ∧
      ((∃ b, validateHashes sha256 m (numbered 8) ⟨[], [[]], 2⟩ 0 = .ok b ∧
          validateResults ((numbered 7).map readOf) (numbered 8) = .ok b ∧
          (b = true ↔ (numbered 8).map readOf = (numbered 7).map readOf)) ↔
        ¬ Overruns 2 ((numbered 7).map readOf) ((numbered 8).map readOf)) :=
  hash_check_agrees_iff 32 rfl (by decide) (by decide +kernel) (by decide +kernel)
    (by decide +kernel)

/-- Six recorded results fill the top level of a tree of degree 2; three more at the end of
the range are a phantom that the raw validator reports, and the hash validator panics. -/
theorem nine_overrun_six :
    NoCollision sha256 32 2 ((numbered 6).map readOf) ((numbered 9).map readOf) ∧
      (summaryOf sha256 2 ((numbered 6).map readOf)).map
          (fun m => validateHashes sha256 m (numbered 9) ⟨[], [[]], 2⟩ 0) =
        some (panicWith .indexOutOfRange) ∧
      validateResults ((numbered 6).map readOf) (numbered 9) = .ok false := by
  decide +kernel

end FabricOev.Ledger
