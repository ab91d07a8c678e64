import FabricOev.Ledger.HostileRwSets

/-!
# Failing database calls

Validation again, with its calls on the `VersionedDB` made explicit: the point reads, the
opening of an iterator, each step of it, and the read of an end key. Calls are numbered as
they are made, and any of them may fail with an error. All but one of the callers pass the
error on; `validateKVRead` answers that the read is stale.
-/

namespace FabricOev.Ledger

open Go Protos Lib SortedMerge List Result TxValidationCode UInt64 Nat Prod TxFlags HeaderType

namespace Fallible

def dbError {α : Type} : Result α := errorf "database error"

variable (fails : Nat → Bool)

/-- A call whose error is passed on. -/
def call (n : Nat) : Result Nat := if fails n then dbError else .ok (n + 1)

/-- `combinedIterator`: what is left of database and batch, the first of each fetched. -/
structure CombinedItr where
  ns : GoString
  endKey : GoString
  includeEndKey : Bool
  dbItems : List (GoString × VersionedValue)
  updatesItems : List (GoString × Update)
  endKeyServed : Bool

abbrev Item := GoString × VersionedValue

def newCombinedIterator (db : StateDb) (updates : UpdateBatch) (ns start stop : GoString)
    (includeEndKey : Bool) (n : Nat) : Result (CombinedItr × Nat) := do
  -- GetStateRangeScanIterator, and Next for the first item
  let n ← call fails n
  let n ← call fails n
  .ok (⟨ns, stop, includeEndKey, scan db.state ns start stop, scan updates ns start stop, false⟩, n)

def serveEndKeyIfNeeded (db : StateDb) (updates : UpdateBatch) (itr : CombinedItr) (n : Nat) :
    Result ((Option Item × CombinedItr) × Nat) :=
  if !itr.includeEndKey || itr.endKeyServed then .ok ((none, itr), n)
  else
    match updates.get itr.ns itr.endKey with
    | some u => .ok ((u.toValue.map fun v => (itr.endKey, v), { itr with endKeyServed := true }), n)
    | none => do
      let n ← call fails n
      .ok (((db.getState itr.ns itr.endKey).map fun v => (itr.endKey, v),
        { itr with endKeyServed := true }), n)

/-- `combinedIterator.Next`. A deleted key is passed over; the first argument bounds how many
can be. -/
def next (db : StateDb) (updates : UpdateBatch) :
    Nat → CombinedItr → Nat → Result ((Option Item × CombinedItr) × Nat)
  | 0, itr, n => .ok ((none, itr), n)
  | fuel + 1, itr, n =>
    match itr.dbItems, itr.updatesItems with
    | [], [] => serveEndKeyIfNeeded fails db updates itr n
    | d :: ds, [] => do
      let n ← call fails n
      .ok ((some d, { itr with dbItems := ds }), n)
    | [], u :: us =>
      match u.2.toValue with
      | some v => .ok ((some (u.1, v), { itr with updatesItems := us }), n)
      | none => next db updates fuel { itr with updatesItems := us } n
    | d :: ds, u :: us =>
      match compare d.1 u.1 with
      | .lt => do
        let n ← call fails n
        .ok ((some d, { itr with dbItems := ds }), n)
      | .eq => do
        let n ← call fails n
        match u.2.toValue with
        | some v => .ok ((some (u.1, v), { itr with dbItems := ds, updatesItems := us }), n)
        | none => next db updates fuel { itr with dbItems := ds, updatesItems := us } n
      | .gt =>
        match u.2.toValue with
        | some v => .ok ((some (u.1, v), { itr with updatesItems := us }), n)
        | none => next db updates fuel { itr with updatesItems := us } n

def CombinedItr.size (itr : CombinedItr) : Nat := itr.dbItems.length + itr.updatesItems.length + 1

/-- The loop of `rangeQueryResultsValidator.validate`, with the result fetched last. -/
def validateResults (db : StateDb) (updates : UpdateBatch) :
    List KvRead → Option Item → CombinedItr → Nat → Result (Bool × Nat)
  | [], result, _, n => .ok (result.isNone, n)
  | _ :: _, none, _, n => .ok (false, n)
  | kv :: kvs, some r, itr, n =>
    if r.1 ≠ kv.key then .ok (false, n)
    else do
      let v ← deref kv.version
      if r.2.version ≠ v then .ok (false, n)
      else do
        let ((result, itr), n) ← next fails db updates itr.size itr n
        validateResults db updates kvs result itr n

/-- The loop of `rangeQueryHashValidator.validate`; the first argument bounds the results. -/
def validateHashes (hash : Bytes → Bytes) (db : StateDb) (updates : UpdateBatch)
    (inMerkle : MerkleSummary) :
    Nat → CombinedItr → ResultsHelper → Nat → Nat → Result (Bool × Nat)
  | 0, _, _, _, n => .ok (false, n)
  | fuel + 1, itr, helper, matched, n => do
    let ((result, itr), n) ← next fails db updates itr.size itr n
    match result with
    | none => .ok (helper.done hash = some inMerkle, n)
    | some r =>
      let helper := helper.addResult hash ⟨r.1, some r.2.version⟩
      let merkle := helper.summary
      if merkle.maxLevel < inMerkle.maxLevel then
        validateHashes hash db updates inMerkle fuel itr helper matched n
      else if matched = merkle.hashes.length then
        validateHashes hash db updates inMerkle fuel itr helper matched n
      else if inMerkle.hashes.length < merkle.hashes.length then .ok (false, n)
      else do
        let h ← index merkle.hashes matched
        let h' ← index inMerkle.hashes matched
        if h = h' then validateHashes hash db updates inMerkle fuel itr helper (matched + 1) n
        else .ok (false, n)

variable (hash : Bytes → Bytes) (db : StateDb) {n : Nat}

def validateRangeQuery (updates : UpdateBatch) (ns : GoString) (q : RangeQueryInfo) (n : Nat) :
    Result (Bool × Nat) := do
  let (itr, n) ← newCombinedIterator fails db updates ns q.startKey q.endKey (!q.itrExhausted) n
  match q.readsInfo with
  | .merkleHashes m =>
    match ResultsHelper.new m.maxDegree with
    | some helper => validateHashes fails hash db updates m (itr.size + 2) itr helper 0 n
    -- a nil helper is dereferenced after the first call of `Next`
    | none => do
      let _ ← next fails db updates itr.size itr n
      panicWith .nilDereference
  | .rawReads rs => do
    let ((result, itr), n) ← next fails db updates itr.size itr n
    validateResults fails db updates rs result itr n
  | .absent => do
    let ((result, itr), n) ← next fails db updates itr.size itr n
    validateResults fails db updates [] result itr n

/-- `validateKVRead`. A failing `GetState` makes the read stale. -/
def validateKvRead (updates : UpdateBatch) (ns : GoString) (r : KvRead) (n : Nat) : Bool × Nat :=
  if updates.existsKey ns r.key then (false, n)
  else if fails n then (false, n + 1)
  else (areSame ((db.getState ns r.key).map (·.version)) r.version, n + 1)

def validateReadSet (updates : UpdateBatch) (ns : GoString) : List KvRead → Nat → Bool × Nat
  | [], n => (true, n)
  | r :: rs, n =>
    let (ok, n) := validateKvRead fails db updates ns r n
    if ok then validateReadSet updates ns rs n else (false, n)

def validateRangeQueries (updates : UpdateBatch) (ns : GoString) :
    List RangeQueryInfo → Nat → Result (Bool × Nat)
  | [], n => .ok (true, n)
  | q :: qs, n => do
    let (ok, n) ← validateRangeQuery fails hash db updates ns q n
    if ok then validateRangeQueries updates ns qs n else .ok (false, n)

def validateTx (updates : UpdateBatch) : TxRwSet → Nat → Result (TxValidationCode × Nat)
  | [], n => .ok (.valid, n)
  | s :: ss, n =>
    let (ok, n) := validateReadSet fails db updates s.ns s.reads n
    if ok then do
      let (ok, n) ← validateRangeQueries fails hash db updates s.ns s.rangeQueries n
      if ok then validateTx updates ss n else .ok (.phantomReadConflict, n)
    else .ok (.mvccReadConflict, n)

def validateEndorserTx (data : Bytes) (doMvccValidation : Bool) (updates : UpdateBatch) (n : Nat) :
    Result ((Option TxRwSet × TxValidationCode) × Nat) := do
  match ← (getActionFromEnvelope data).attempt with
  | .error _ => .ok ((none, .nilTxAction), n)
  | .ok action =>
    match TxRwSet.fromProtoBytes action.results with
    | none => .ok ((none, .invalidOtherReason), n)
    | some rw =>
      if doMvccValidation then do
        let (code, n) ← validateTx fails hash db updates rw n
        if code = .valid then .ok ((some rw, .valid), n) else .ok ((none, code), n)
      else .ok ((some rw, .valid), n)

/-- One transaction of `ValidateAndPrepareBatch`. -/
def validateOne (number : UInt64) (doMvccValidation : Bool) (st : TxFlags × UpdateBatch) (i : Nat)
    (data : Bytes) (n : Nat) : Result ((TxFlags × UpdateBatch) × Nat) := do
  let (flags, updates) := st
  if ← flags.isValid i then do
    let chdr ← channelHeaderOf data
    if chdr.headerType ≠ endorserTransaction then .ok ((flags, updates), n)
    else do
      let ((rw, code), n) ← validateEndorserTx fails hash db data doMvccValidation updates n
      let flags ← flags.setFlag i code
      match rw with
      | none => .ok ((flags, updates), n)
      | some rw => do
        let updates ← addWriteSetToBatch rw ⟨number, ofNat i⟩ updates
        .ok ((flags, updates), n)
  else .ok ((flags, updates), n)

def validateLoop (number : UInt64) (doMvccValidation : Bool) :
    Nat → List Bytes → TxFlags × UpdateBatch → Nat → Result ((TxFlags × UpdateBatch) × Nat)
  | _, [], st, n => .ok (st, n)
  | i, d :: ds, st, n => do
    let (st, n) ← validateOne fails hash db number doMvccValidation st i d n
    validateLoop number doMvccValidation (i + 1) ds st n

/-- `ValidateAndPrepareBatch`: the block with its new flags and the batch, and the number of
calls made. -/
def validateAndPrepareBatch (block : Block) (doMvccValidation : Bool) :
    Result ((Block × UpdateBatch) × Nat) := do
  let flags ← block.txsFilter
  let ((flags, updates), n) ←
    validateLoop fails hash db block.header.number doMvccValidation 0 block.data (flags, ∅) 0
  .ok ((block.setFilter flags, updates), n)

/-! ## The combined iterator -/

variable {fails : Nat → Bool} {hash : Bytes → Bytes} {db : StateDb} {updates : UpdateBatch}
  {α β : Type} {ns endKey : GoString} {incl served : Bool} {ds : List Item}
  {us : List (GoString × Update)} {itr : CombinedItr} {fuel : Nat} {number : UInt64} {mvcc : Bool}
  {st : TxFlags × UpdateBatch} {i : Nat} {d : Bytes} {st' : TxFlags × UpdateBatch} {n' : Nat}
  {g : α → Result β} {p : Result α}

def CombinedItr.endPart (db : StateDb) (updates : UpdateBatch) (itr : CombinedItr) : List Item :=
  if itr.includeEndKey && !itr.endKeyServed then serveEndKey db updates itr.ns itr.endKey else []

def CombinedItr.results (db : StateDb) (updates : UpdateBatch) (itr : CombinedItr) : List Item :=
  combine itr.size itr.dbItems itr.updatesItems ++ itr.endPart db updates

/-- Fail because a call does, or do what is done without failures. -/
def Agrees {α : Type} (fails : Nat → Bool) (x : Result (α × Nat)) (p : Result α) : Prop :=
  (x = dbError ∧ ∃ k, fails k = true) ∨ ∃ n, x = p >>= fun a => .ok (a, n)

theorem Agrees.ok (a : α) (n : Nat) : Agrees fails (.ok (a, n)) (.ok a) := .inr ⟨n, rfl⟩

theorem Agrees.lift {f : α → Result (β × Nat)} (h : ∀ a, Agrees fails (f a) (g a)) :
    Agrees fails (p >>= f) (p >>= g) := by
  cases p with
  | error e => exact .inr ⟨0, rfl⟩
  | ok a => exact h a

theorem Agrees.bind {x : Result (α × Nat)} {f : α × Nat → Result (β × Nat)} (h : Agrees fails x p)
    (hf : ∀ a n, Agrees fails (f (a, n)) (g a)) :
    Agrees fails (x >>= f) (p >>= g) := by
  obtain ⟨rfl, hk⟩ | ⟨n, rfl⟩ := h
  · exact .inl ⟨rfl, hk⟩
  · cases p with
    | error e => exact .inr ⟨0, rfl⟩
    | ok a => exact hf a n

/-- A call fails, or what follows it is done. -/
theorem call_bind {γ : Type} {P : Result γ → Prop} {f : Nat → Result γ}
    (hfail : (∃ k, fails k = true) → P dbError) (h : P (f (n + 1))) : P (call fails n >>= f) := by
  unfold call
  split
  · rename_i hk
    exact hfail ⟨n, hk⟩
  · exact h

theorem Agrees.call {p : Result β} {f : Nat → Result (β × Nat)} (h : Agrees fails (f (n + 1)) p) :
    Agrees fails (call fails n >>= f) p :=
  call_bind (P := (Agrees fails · p)) (fun hk => .inl ⟨rfl, hk⟩) h

/-- The step an iterator takes: it fails, or gives the first of what it still serves. -/
def Steps (fails : Nat → Bool) (db : StateDb) (updates : UpdateBatch) (itr : CombinedItr)
    (x : Result ((Option Item × CombinedItr) × Nat)) : Prop :=
  (x = dbError ∧ ∃ k, fails k = true) ∨
    ∃ itr' n, x = .ok (((itr.results db updates).head?, itr'), n) ∧
      itr'.results db updates = (itr.results db updates).tail ∧ itr'.size ≤ itr.size

theorem Steps.call {f : Nat → Result ((Option Item × CombinedItr) × Nat)}
    (h : Steps fails db updates itr (f (n + 1))) :
    Steps fails db updates itr (call fails n >>= f) :=
  call_bind (P := Steps fails db updates itr) (fun hk => .inl ⟨rfl, hk⟩) h

theorem results_mk {k : Nat} (hk : ds.length + us.length < k) :
    (CombinedItr.mk ns endKey incl ds us served).results db updates =
      combine k ds us ++ if incl && !served then serveEndKey db updates ns endKey else [] := by
  induction hk with
  | refl => rfl
  | step hk ih => rw [combine, merge_succ hk, ih]

theorem steps_serveEndKey (ns endKey : GoString) (incl served : Bool) (n : Nat) :
    Steps fails db updates ⟨ns, endKey, incl, [], [], served⟩
      (serveEndKeyIfNeeded fails db updates ⟨ns, endKey, incl, [], [], served⟩ n) := by
  have hserved : (CombinedItr.mk ns endKey incl [] [] true).results db updates = [] := by
    simp [results_mk (k := 1), SortedMerge.merge]
  unfold serveEndKeyIfNeeded
  split
  · rename_i hno
    have hnil : (CombinedItr.mk ns endKey incl [] [] served).results db updates = [] := by
      rw [results_mk (k := 1) (by simp), if_neg]
      · rfl
      · simpa [Bool.or_eq_true, imp_iff_not_or] using hno
    exact .inr ⟨_, n, by rw [hnil]; rfl, by rw [hnil]; rfl, le_refl _⟩
  · rename_i hyes
    have hend : (CombinedItr.mk ns endKey incl [] [] served).results db updates =
        serveEndKey db updates ns endKey := by
      rw [results_mk (k := 1) (by simp), if_pos (by simpa using hyes)]
      rfl
    have hstep : ∀ o : Option Item, serveEndKey db updates ns endKey = o.toList → ∀ n,
        Steps fails db updates ⟨ns, endKey, incl, [], [], served⟩
          (.ok ((o, ⟨ns, endKey, incl, [], [], true⟩), n)) := by
      intro o ho n
      refine .inr ⟨⟨ns, endKey, incl, [], [], true⟩, n, ?_, ?_, le_refl _⟩
      · rw [hend, ho]
        cases o <;> rfl
      · rw [hserved, hend, ho]
        cases o <;> rfl
    split
    · rename_i u hu
      apply hstep
      rw [serveEndKey, hu]
      rfl
    · rename_i hu
      apply Steps.call
      apply hstep
      rw [serveEndKey, hu]
      rfl

theorem steps_db {d : Item} (hlt : ∀ k, combine (k + 1) (d :: ds) us = d :: combine k ds us)
    (n : Nat) :
    Steps fails db updates ⟨ns, endKey, incl, d :: ds, us, served⟩
      (call fails n >>= fun n => .ok ((some d, ⟨ns, endKey, incl, ds, us, served⟩), n)) := by
  have hresults : (CombinedItr.mk ns endKey incl (d :: ds) us served).results db updates =
      d :: (CombinedItr.mk ns endKey incl ds us served).results db updates := by
    rw [results_mk (k := ds.length + us.length + 2) (by simp; omega), hlt,
      results_mk (k := ds.length + us.length + 1) (by omega)]
    rfl
  apply Steps.call
  refine .inr ⟨_, n + 1, by rw [hresults]; rfl, by rw [hresults]; rfl, ?_⟩
  simp only [CombinedItr.size, length_cons]
  omega

theorem steps_update {itr' : CombinedItr} {u : GoString × Update}
    (hresults : itr.results db updates = emit Update.toValue u (itr'.results db updates))
    (hsize : itr'.size ≤ itr.size)
    (hrest : Steps fails db updates itr' (next fails db updates fuel itr' n)) :
    Steps fails db updates itr (match u.2.toValue with
      | some v => .ok ((some (u.1, v), itr'), n)
      | none => next fails db updates fuel itr' n) := by
  unfold emit at hresults
  cases hv : u.2.toValue with
  | some v =>
    rw [hv] at hresults
    exact .inr ⟨itr', n, by rw [hresults]; rfl, by rw [hresults]; rfl, hsize⟩
  | none =>
    rw [hv] at hresults
    obtain h | ⟨itr'', n', hx, htail, hsize'⟩ := hrest
    · exact .inl h
    · exact .inr ⟨itr'', n', by rw [hresults]; exact hx, by rw [hresults]; exact htail,
        hsize'.trans hsize⟩

variable (fails db updates) in
theorem steps_next (hfuel : itr.size ≤ fuel) (n : Nat) :
    Steps fails db updates itr (next fails db updates fuel itr n) := by
  induction fuel generalizing itr n with
  | zero =>
    unfold CombinedItr.size at hfuel
    omega
  | succ fuel ih =>
    obtain ⟨ns, endKey, incl, ds, us, served⟩ := itr
    simp only [CombinedItr.size] at hfuel
    cases ds with
    | nil =>
      cases us with
      | nil => exact steps_serveEndKey ns endKey incl served n
      | cons u us =>
        rw [length_cons] at hfuel
        refine steps_update ?_ ?_ (ih ?_ n)
        · rw [results_mk (k := us.length + 2) (by simp), combine, SortedMerge.merge, emit_append,
            results_mk (k := us.length + 1) (by simp)]
        · simp [CombinedItr.size]
        · simp only [CombinedItr.size]
          omega
    | cons d ds =>
      cases us with
      | nil => exact steps_db (fun k => rfl) n
      | cons u us =>
        simp only [length_cons] at hfuel
        rw [next]
        dsimp only
        cases hcmp : compare d.1 u.1 with
        | lt => exact steps_db (fun k => by rw [combine, SortedMerge.merge, hcmp]) n
        | eq =>
          apply Steps.call
          refine steps_update ?_ ?_ (ih ?_ (n + 1))
          · rw [results_mk (k := ds.length + us.length + 3) (by simp; omega), combine,
              SortedMerge.merge, hcmp]
            rw [emit_append, results_mk (k := ds.length + us.length + 2) (by omega)]
          · simp only [CombinedItr.size, length_cons]
            omega
          · simp only [CombinedItr.size]
            omega
        | gt =>
          refine steps_update ?_ ?_ (ih ?_ n)
          · rw [results_mk (k := ds.length + us.length + 3) (by simp; omega), combine,
              SortedMerge.merge, hcmp]
            rw [emit_append, results_mk (k := ds.length + us.length + 2)
              (by simp only [length_cons]; omega)]
          · simp only [CombinedItr.size, length_cons]
            omega
          · simp only [CombinedItr.size, length_cons]
            omega

/-! ## The validators -/

theorem Agrees.next {f : (Option Item × CombinedItr) × Nat → Result (β × Nat)} {p : Result β}
    (n : Nat) (h : ∀ itr' n', itr'.results db updates = (itr.results db updates).tail →
      Agrees fails (f (((itr.results db updates).head?, itr'), n')) p) :
    Agrees fails (next fails db updates itr.size itr n >>= f) p := by
  obtain ⟨hx, hk⟩ | ⟨itr', n', hx, htail, -⟩ := steps_next fails db updates (le_refl itr.size) n
  · rw [hx]
    exact .inl ⟨rfl, hk⟩
  · rw [hx]
    exact h itr' n' htail

theorem agrees_validateResults (kvs : List KvRead) {rs : List Item}
    (hitr : itr.results db updates = rs.tail) (n : Nat) :
    Agrees fails (validateResults fails db updates kvs rs.head? itr n)
      (Ledger.validateResults kvs rs) := by
  induction kvs generalizing itr rs n with
  | nil =>
    cases rs with
    | nil | cons r rs => exact .ok _ _
  | cons kv kvs ih =>
    cases rs with
    | nil => exact .ok _ _
    | cons r rs =>
      rw [head?_cons, validateResults, Ledger.validateResults]
      split
      · exact .ok _ _
      · apply Agrees.lift
        intro v
        split
        · exact .ok _ _
        · apply Agrees.next
          intro itr' n' hitr'
          rw [hitr, tail_cons] at hitr' ⊢
          exact ih hitr' n'

variable (db updates itr) in
theorem length_results_le : (itr.results db updates).length ≤ itr.size := by
  have hcombine : (combine _ _ _).length ≤ _ := length_merge_le itr.size itr.dbItems itr.updatesItems
  have hend : (itr.endPart db updates).length ≤ 1 := by
    unfold CombinedItr.endPart serveEndKey
    split
    · exact Option.length_toList_le
    · exact zero_le _
  rw [CombinedItr.results, length_append, CombinedItr.size] at *
  omega

theorem agrees_validateHashes (m : MerkleSummary) (hfuel : (itr.results db updates).length < fuel)
    (helper : ResultsHelper) (k n : Nat) :
    Agrees fails (validateHashes fails hash db updates m fuel itr helper k n)
      (Ledger.validateHashes hash m (itr.results db updates) helper k) := by
  induction fuel generalizing itr helper k n with
  | zero => omega
  | succ fuel ih =>
    apply Agrees.next
    intro itr' n' hitr'
    cases hrs : itr.results db updates with
    | nil => exact .ok _ _
    | cons r rs =>
      rw [hrs, tail_cons] at hitr'
      rw [hrs, length_cons] at hfuel
      rw [← hitr'] at hfuel ⊢
      have hrest : ∀ helper k, Agrees fails
          (validateHashes fails hash db updates m fuel itr' helper k n')
          (Ledger.validateHashes hash m (itr'.results db updates) helper k) :=
        fun helper k => ih (by omega) helper k n'
      rw [head?_cons, Ledger.validateHashes]
      dsimp only
      split
      · exact hrest _ _
      · split
        · exact hrest _ _
        · split
          · exact .ok _ _
          · refine Agrees.lift fun h => Agrees.lift fun h' => ?_
            split
            · exact hrest _ _
            · exact .ok _ _

theorem agrees_rangeQuery (ns : GoString) (q : RangeQueryInfo) (n : Nat) :
    Agrees fails (validateRangeQuery fails hash db updates ns q n)
      (Ledger.validateRangeQuery hash db updates ns q) := by
  -- opening the iterator makes two calls
  have hopen : ∀ {β : Type} {f : CombinedItr × Nat → Result (β × Nat)} {p : Result β},
      (∀ itr n', itr.results db updates =
          combinedResults db updates ns q.startKey q.endKey (!q.itrExhausted) →
        Agrees fails (f (itr, n')) p) →
      Agrees fails (newCombinedIterator fails db updates ns q.startKey q.endKey (!q.itrExhausted) n
        >>= f) p := by
    intro β f p h
    unfold newCombinedIterator
    rw [bind_assoc]
    apply Agrees.call
    rw [bind_assoc]
    apply Agrees.call
    apply h
    rw [results_mk (lt_succ_self _), Bool.not_false, Bool.and_true]
    rfl
  unfold validateRangeQuery Ledger.validateRangeQuery
  apply hopen
  intro itr n' hitr
  cases q.readsInfo with
  | absent =>
    apply Agrees.next
    intro itr' n'' hitr'
    rw [← hitr]
    exact agrees_validateResults [] hitr' n''
  | rawReads rs =>
    apply Agrees.next
    intro itr' n'' hitr'
    rw [← hitr]
    exact agrees_validateResults rs hitr' n''
  | merkleHashes m =>
    dsimp only
    cases ResultsHelper.new m.maxDegree with
    | some helper =>
      rw [← hitr]
      have hlen := length_results_le db updates itr
      exact agrees_validateHashes m (by omega) helper 0 n'
    | none =>
      apply Agrees.next
      intro _ _ _
      exact .inr ⟨0, rfl⟩

variable (fails hash db updates ns) in
theorem agrees_rangeQueries (qs : List RangeQueryInfo) (n : Nat) :
    Agrees fails (validateRangeQueries fails hash db updates ns qs n)
      (Ledger.validateRangeQueries hash db updates ns qs) := by
  induction qs generalizing n with
  | nil => exact .ok _ _
  | cons q qs ih =>
    apply (agrees_rangeQuery ns q n).bind
    intro ok n'
    dsimp only
    split
    · exact ih n'
    · exact .ok _ _

/-- The check of the reads comes to one whose `GetState` fails. -/
def ReadSwallowed (fails : Nat → Bool) (db : StateDb) (updates : UpdateBatch) (ns : GoString) :
    List KvRead → Nat → Prop
  | [], _ => False
  | r :: rs, n =>
    updates.existsKey ns r.key = false ∧ (fails n = true ∨
        (Ledger.validateKvRead db updates ns r = true ∧ ReadSwallowed fails db updates ns rs (n + 1)))

variable (fails db updates ns) in
theorem validateReadSet_cases (rs : List KvRead) (n : Nat) :
    (ReadSwallowed fails db updates ns rs n ∧
        (validateReadSet fails db updates ns rs n).1 = false) ∨
      (¬ ReadSwallowed fails db updates ns rs n ∧
        (validateReadSet fails db updates ns rs n).1 = Ledger.validateReadSet db updates ns rs) := by
  induction rs generalizing n with
  | nil => exact .inr ⟨id, rfl⟩
  | cons r rs ih =>
    rw [ReadSwallowed, validateReadSet]
    have hall : Ledger.validateReadSet db updates ns (r :: rs) =
        (Ledger.validateKvRead db updates ns r && Ledger.validateReadSet db updates ns rs) := rfl
    rw [hall]
    unfold validateKvRead Ledger.validateKvRead
    cases hkey : updates.existsKey ns r.key with
    | true => exact .inr ⟨fun h => (nomatch h.1), rfl⟩
    | false =>
      cases hfail : fails n with
      | true => exact .inl ⟨⟨rfl, .inl rfl⟩, rfl⟩
      | false =>
        simp only [Bool.false_eq_true, if_false, false_or, true_and]
        cases hsame : areSame ((db.getState ns r.key).map (·.version)) r.version with
        | false => exact .inr ⟨fun h => (nomatch h.1), rfl⟩
        | true =>
          simp only [if_true, true_and, Bool.true_and]
          exact ih (n + 1)

/-- The check of a transaction comes to a read whose `GetState` fails. -/
def Swallowed (fails : Nat → Bool) (hash : Bytes → Bytes) (db : StateDb) (updates : UpdateBatch) :
    TxRwSet → Nat → Prop
  | [], _ => False
  | s :: ss, n =>
    ReadSwallowed fails db updates s.ns s.reads n ∨
      ((validateReadSet fails db updates s.ns s.reads n).1 = true ∧
        ∃ n', validateRangeQueries fails hash db updates s.ns s.rangeQueries
          (validateReadSet fails db updates s.ns s.reads n).2 = .ok (true, n') ∧
          Swallowed fails hash db updates ss n')

variable (fails hash db updates) in
/-- A swallowed error makes a conflict; else it is checked as without failures, or the error comes
out. -/
theorem validateTx_cases (rw : TxRwSet) (n : Nat) :
    (Swallowed fails hash db updates rw n ∧
        ∃ n', validateTx fails hash db updates rw n = .ok (.mvccReadConflict, n')) ∨
      (¬ Swallowed fails hash db updates rw n ∧ Agrees fails (validateTx fails hash db updates rw n)
          (Ledger.validateTx hash db updates rw)) := by
  induction rw generalizing n with
  | nil => exact .inr ⟨id, .ok _ _⟩
  | cons s ss ih =>
    rw [Swallowed, validateTx, Ledger.validateTx]
    dsimp only
    obtain ⟨hswallowed, hfalse⟩ | ⟨hnot, hsame⟩ :=
      validateReadSet_cases fails db updates s.ns s.reads n
    · rw [hfalse]
      exact .inl ⟨.inl hswallowed, _, rfl⟩
    · rw [or_iff_right hnot, hsame]
      cases hreads : Ledger.validateReadSet db updates s.ns s.reads with
      | false => exact .inr ⟨fun h => Bool.false_ne_true h.1, .ok _ _⟩
      | true =>
        simp only [if_true, true_and]
        generalize (validateReadSet fails db updates s.ns s.reads n).2 = n1
        obtain ⟨hx, hk⟩ | ⟨n2, hx⟩ := agrees_rangeQueries fails hash db updates s.ns
          s.rangeQueries n1
        · right
          rw [hx]
          refine ⟨fun h => ?_, .inl ⟨rfl, hk⟩⟩
          obtain ⟨n', h, -⟩ := h
          cases h
        · rw [hx]
          cases Ledger.validateRangeQueries hash db updates s.ns s.rangeQueries with
          | error e =>
            refine .inr ⟨fun h => ?_, .inr ⟨0, rfl⟩⟩
            obtain ⟨n', h, -⟩ := h
            cases h
          | ok ok =>
            cases ok with
            | false =>
              refine .inr ⟨fun h => ?_, .ok _ _⟩
              obtain ⟨n', h, -⟩ := h
              cases h
            | true =>
              obtain ⟨hs, hx'⟩ | ⟨hs, hx'⟩ := ih n2
              · exact .inl ⟨⟨n2, rfl, hs⟩, hx'⟩
              · refine .inr ⟨fun h => ?_, hx'⟩
                obtain ⟨n', h, hs'⟩ := h
                cases h
                exact hs hs'

/-! ## Transactions -/

theorem validateOne_of_endorsed {chdr : ChannelHeader} {rw : TxRwSet} (hv : FlaggedValid st.1 i)
    (hc : channelHeaderOf d = .ok chdr) (ht : chdr.headerType = endorserTransaction)
    (hrw : EndorsedRwSet d rw) (n : Nat) :
    validateOne fails hash db number mvcc st i d n =
      (if mvcc then validateTx fails hash db st.2 rw n else .ok (.valid, n)) >>= fun p =>
        if p.1 = .valid then
          addWriteSetToBatch rw ⟨number, ofNat i⟩ st.2 >>= fun updates => .ok ((st.1, updates), p.2)
        else .ok ((st.1.set i p.1.toByte, st.2), p.2) := by
  obtain ⟨flags, updates⟩ := st
  obtain ⟨action, haction, hrw⟩ := hrw
  have hi : i < flags.length := hv.lt
  have hset : ∀ code, setFlag flags i code = .ok (flags.set i code.toByte) := fun code => if_pos hi
  have hflag : flags.isValid i = .ok true := by rw [isValid_eq, if_pos hi, decide_eq_true hv]
  have hendorser : validateEndorserTx fails hash db d mvcc updates n =
      (if mvcc then validateTx fails hash db updates rw n else .ok (.valid, n)) >>= fun p =>
        .ok (if p.1 = .valid then (some rw, .valid) else (none, p.1), p.2) := by
    rw [validateEndorserTx, haction]
    show (match TxRwSet.fromProtoBytes action.results with | none => _ | some rw => _) = _
    rw [hrw]
    cases mvcc with
    | false => rfl
    | true =>
      refine bind_congr fun p => ?_
      obtain ⟨code, n'⟩ := p
      show (if code = .valid then _ else _) = Except.ok (if code = .valid then _ else _, n')
      split_ifs
      · rfl
      · rfl
  rw [validateOne]
  dsimp only
  rw [hflag, ok_bind, if_pos rfl, hc, ok_bind, if_neg (not_not.mpr ht), hendorser, bind_assoc]
  refine bind_congr fun p => ?_
  rw [ok_bind]
  split
  · rw [hset, hv.set_self]
    rfl
  · rw [hset]
    rfl

/-- Nothing is called for a transaction that is not checked. -/
theorem validateOne_of_unchecked (h : ¬ (FlaggedValid st.1 i ∧ carriedRwSet d ≠ none)) (n : Nat) :
    validateOne fails hash db number mvcc st i d n =
      Ledger.validateOne hash db number mvcc st i d >>= fun st' => .ok (st', n) := by
  obtain ⟨flags, updates⟩ := st
  rw [validateOne, Ledger.validateOne]
  cases hflag : flags.isValid i with
  | error f => rfl
  | ok b =>
    rw [ok_bind, ok_bind]
    cases b with
    | false => rfl
    | true =>
      have hv := (isValid_eq_ok hflag).mp rfl
      have hnone : carriedRwSet d = none := by
        by_contra hne
        exact h ⟨hv, hne⟩
      rw [if_pos rfl, if_pos rfl]
      cases hc : channelHeaderOf d with
      | error f => rfl
      | ok chdr =>
        rw [ok_bind, ok_bind]
        split
        · rfl
        · rename_i ht
          -- the code is set, and there is nothing to add
          have hset : ∀ code, (do
                let flags ← flags.setFlag i code
                .ok ((flags, updates), n) : Result ((TxFlags × UpdateBatch) × Nat)) =
              (do
                let flags ← flags.setFlag i code
                .ok (flags, updates)) >>= fun st' => .ok (st', n) := by
            intro code
            rw [bind_assoc]
            rfl
          rw [validateEndorserTx, Ledger.validateEndorserTx]
          cases haction : getActionFromEnvelope d with
          | error f =>
            cases f with
            | error e => exact hset .nilTxAction
            | panic p => rfl
          | ok action =>
            have hrw : TxRwSet.fromProtoBytes action.results = none := by
              rw [carriedRwSet, hc, haction] at hnone
              exact (if_pos (not_not.mp ht)).symm.trans hnone
            simp only [attempt, ok_bind, hrw]
            exact hset .invalidOtherReason

theorem eq_conflict_of_toByte {code : TxValidationCode}
    (h : code.toByte = TxValidationCode.mvccReadConflict.toByte) : code = .mvccReadConflict := by
  cases code with
  | mvccReadConflict => rfl
  | _ => exact absurd h (by decide)

/-- If a `GetState` that fails is swallowed, the transaction is a conflict anyway. -/
def StepHarmless (fails : Nat → Bool) (hash : Bytes → Bytes) (db : StateDb) (mvcc : Bool)
    (st : TxFlags × UpdateBatch) (i : Nat) (d : Bytes) (n : Nat) : Prop :=
  FlaggedValid st.1 i → ∀ rw, carriedRwSet d = some rw → mvcc = true →
    Swallowed fails hash db st.2 rw n →
    Ledger.validateTx hash db st.2 rw = .ok .mvccReadConflict

/-- Validated as without failures, or flagged a conflict that it is not. -/
theorem validateOne_run (h : validateOne fails hash db number mvcc st i d n = .ok (st', n')) :
    (StepHarmless fails hash db mvcc st i d n ∧
        Ledger.validateOne hash db number mvcc st i d = .ok st') ∨
      (¬ StepHarmless fails hash db mvcc st i d n ∧ FlaggedValid st.1 i ∧
        st' = (st.1.set i TxValidationCode.mvccReadConflict.toByte, st.2) ∧
        ∀ st'', Ledger.validateOne hash db number mvcc st i d = .ok st'' →
          st''.1[i]? ≠ some TxValidationCode.mvccReadConflict.toByte) := by
  by_cases hchecked : FlaggedValid st.1 i ∧ carriedRwSet d ≠ none
  · obtain ⟨hv, hne⟩ := hchecked
    obtain ⟨rw, hcarried⟩ := Option.ne_none_iff_exists'.mp hne
    obtain ⟨chdr, hc, ht, hrw⟩ := carriedRwSet_eq_some hcarried
    rw [validateOne_of_endorsed hv hc ht hrw] at h
    rw [Ledger.validateOne_of_endorsed hv hc ht hrw]
    have hharmless : StepHarmless fails hash db mvcc st i d n ↔ (mvcc = true →
        Swallowed fails hash db st.2 rw n →
        Ledger.validateTx hash db st.2 rw = .ok .mvccReadConflict) := by
      constructor
      · intro hs
        exact hs hv rw hcarried
      · intro hs _ rw' hrw'
        obtain rfl := Option.some.inj (hcarried.symm.trans hrw')
        exact hs
    rw [hharmless]
    obtain ⟨p, hp, hst⟩ := bind_ok.mp h
    obtain ⟨code, n1⟩ := p
    -- the same code has the same effect
    have hsame : ∀ {x : Result TxValidationCode}, x = .ok code → (x >>= fun code =>
        if code = .valid then addWriteSetToBatch rw ⟨number, ofNat i⟩ st.2 >>= fun updates =>
          .ok (st.1, updates) else .ok (st.1.set i code.toByte, st.2)) = .ok st' := by
      intro x hx
      rw [hx, ok_bind]
      split at hst
      · rename_i hcode
        obtain ⟨updates', hu, hst⟩ := bind_ok.mp hst
        cases hst
        rw [if_pos hcode, hu]
        rfl
      · rename_i hcode
        cases hst
        rw [if_neg hcode]
    cases mvcc with
    | false =>
      cases hp
      exact .inl ⟨fun hm => (nomatch hm), hsame rfl⟩
    | true =>
      obtain ⟨hs, n2, hx⟩ | ⟨hs, hagrees⟩ := validateTx_cases fails hash db st.2 rw n
      · obtain ⟨rfl, -⟩ := mk.inj (Except.ok.inj (hx.symm.trans hp))
        by_cases hconflict : Ledger.validateTx hash db st.2 rw = .ok .mvccReadConflict
        · exact .inl ⟨fun _ _ => hconflict, hsame hconflict⟩
        · refine .inr ⟨fun hall => hconflict (hall rfl hs), hv, ?_, ?_⟩
          · exact (mk.inj (Except.ok.inj hst)).1.symm
          · intro st'' hst''
            obtain ⟨code, hcode, hst''⟩ := bind_ok.mp hst''
            split at hst''
            · obtain ⟨updates', -, hst''⟩ := bind_ok.mp hst''
              cases hst''
              rw [show st.1[i]? = some valid.toByte from hv]
              decide
            · cases hst''
              rw [getElem?_set_self hv.lt]
              intro hbyte
              rw [eq_conflict_of_toByte (Option.some.inj hbyte)] at hcode
              exact hconflict hcode
      · refine .inl ⟨fun _ h => absurd h hs, ?_⟩
        obtain ⟨hx, -⟩ | ⟨n2, hx⟩ := hagrees
        · rw [hx] at hp
          cases hp
        · rw [hx] at hp
          obtain ⟨code', hcode', hp⟩ := bind_ok.mp hp
          cases hp
          exact hsame hcode'
  · rw [validateOne_of_unchecked hchecked] at h
    obtain ⟨st1, hst1, hst⟩ := bind_ok.mp h
    cases hst
    refine .inl ⟨fun hv rw hrw => ?_, hst1⟩
    exact absurd ⟨hv, by rw [hrw]; simp⟩ hchecked

/-- Along the run from transaction `i` on, every swallowed error is harmless. -/
def Harmless (fails : Nat → Bool) (hash : Bytes → Bytes) (db : StateDb) (number : UInt64)
    (mvcc : Bool) : Nat → List Bytes → TxFlags × UpdateBatch → Nat → Prop
  | _, [], _, _ => True
  | i, d :: ds, st, n =>
    StepHarmless fails hash db mvcc st i d n ∧
      ∀ st' n', validateOne fails hash db number mvcc st i d n = .ok (st', n') →
        Harmless fails hash db number mvcc (i + 1) ds st' n'

theorem validateLoop_flag {ds : List Bytes}
    (h : validateLoop fails hash db number mvcc i ds st n = .ok (st', n')) {j : Nat} (hj : j < i) :
    st'.1[j]? = st.1[j]? := by
  induction ds generalizing i st n with
  | nil =>
    cases h
    rfl
  | cons d ds ih =>
    obtain ⟨⟨st1, n1⟩, hone, hrest⟩ := bind_ok.mp h
    rw [ih hrest (by omega)]
    obtain ⟨-, hpure⟩ | ⟨-, -, rfl, -⟩ := validateOne_run hone
    · exact (validateOne_cases hpure).flag_ne (by omega)
    · exact getElem?_set_ne (by omega)

theorem validateLoop_run {ds : List Bytes}
    (h : validateLoop fails hash db number mvcc i ds st n = .ok (st', n')) :
    Ledger.validateLoop hash db number mvcc i ds st = .ok st' ↔
      Harmless fails hash db number mvcc i ds st n := by
  induction ds generalizing i st n with
  | nil =>
    cases h
    exact iff_of_true rfl trivial
  | cons d ds ih =>
    obtain ⟨⟨st1, n1⟩, hone, hrest⟩ := bind_ok.mp h
    have hnext : (∀ st' n', validateOne fails hash db number mvcc st i d n = .ok (st', n') →
        Harmless fails hash db number mvcc (i + 1) ds st' n') ↔
        Harmless fails hash db number mvcc (i + 1) ds st1 n1 := by
      constructor
      · intro hall
        exact hall st1 n1 hone
      · intro hharmless st'' n'' hone'
        obtain ⟨rfl, rfl⟩ := mk.inj (Except.ok.inj (hone.symm.trans hone'))
        exact hharmless
    rw [Harmless, hnext, Ledger.validateLoop]
    obtain ⟨hstep, hpure⟩ | ⟨hstep, hv, rfl, hne⟩ := validateOne_run hone
    · rw [hpure, and_iff_right hstep]
      exact ih hrest
    · refine iff_of_false ?_ fun hall => hstep hall.1
      intro hloop
      obtain ⟨st'', hpure, hloop⟩ := bind_ok.mp hloop
      -- the flag of the transaction is a conflict in one run only
      apply hne st'' hpure
      rw [← (validateLoop_flags hloop).2.2 i (lt_succ_self i),
        validateLoop_flag hrest (lt_succ_self i)]
      exact getElem?_set_self hv.lt

/-! ## Without failures -/

theorem not_readSwallowed_of_never (ns : GoString) (rs : List KvRead) (n : Nat) :
    ¬ ReadSwallowed (fun _ => false) db updates ns rs n := by
  induction rs generalizing n with
  | nil => exact id
  | cons r rs ih =>
    intro h
    obtain ⟨-, h | ⟨-, h⟩⟩ := h
    · cases h
    · exact ih (n + 1) h

theorem not_swallowed_of_never (rw : TxRwSet) (n : Nat) :
    ¬ Swallowed (fun _ => false) hash db updates rw n := by
  induction rw generalizing n with
  | nil => exact id
  | cons s ss ih =>
    intro h
    obtain h | ⟨-, n', -, h⟩ := h
    · exact not_readSwallowed_of_never _ _ _ h
    · exact ih n' h

theorem agrees_validateOne (n : Nat) :
    Agrees (fun _ => false) (validateOne (fun _ => false) hash db number mvcc st i d n)
      (Ledger.validateOne hash db number mvcc st i d) := by
  by_cases hchecked : FlaggedValid st.1 i ∧ carriedRwSet d ≠ none
  · obtain ⟨hv, hne⟩ := hchecked
    obtain ⟨rw, hcarried⟩ := Option.ne_none_iff_exists'.mp hne
    obtain ⟨chdr, hc, ht, hrw⟩ := carriedRwSet_eq_some hcarried
    rw [validateOne_of_endorsed hv hc ht hrw, Ledger.validateOne_of_endorsed hv hc ht hrw]
    have hcheck : Agrees (fun _ => false)
        (if mvcc then validateTx (fun _ => false) hash db st.2 rw n else .ok (.valid, n))
        (if mvcc then Ledger.validateTx hash db st.2 rw else .ok .valid) := by
      split
      · obtain ⟨hs, -⟩ | ⟨-, hagrees⟩ := validateTx_cases (fun _ => false) hash db st.2 rw n
        · exact absurd hs (not_swallowed_of_never rw n)
        · exact hagrees
      · exact .ok _ _
    apply hcheck.bind
    intro code n'
    split
    · exact Agrees.lift fun updates' => .ok _ _
    · exact .ok _ _
  · exact .inr ⟨n, validateOne_of_unchecked hchecked n⟩

theorem agrees_validateLoop (ds : List Bytes) (n : Nat) :
    Agrees (fun _ => false) (validateLoop (fun _ => false) hash db number mvcc i ds st n)
      (Ledger.validateLoop hash db number mvcc i ds st) := by
  induction ds generalizing i st n with
  | nil => exact .ok _ _
  | cons d ds ih => exact (agrees_validateOne n).bind fun st' n' => ih n'

variable (hash db mvcc) in
theorem validateAndPrepareBatch_of_never (block : Block) :
    ∃ n, validateAndPrepareBatch (fun _ => false) hash db block mvcc =
      Ledger.validateAndPrepareBatch hash db block mvcc >>= fun r => .ok (r, n) := by
  have hagrees : Agrees (fun _ => false)
      (validateAndPrepareBatch (fun _ => false) hash db block mvcc)
      (Ledger.validateAndPrepareBatch hash db block mvcc) :=
    Agrees.lift fun flags => (agrees_validateLoop block.data 0).bind fun st n => .ok _ _
  obtain ⟨-, k, hk⟩ | h := hagrees
  · cases hk
  · exact h

/-- A run that returns in spite of failing calls has the flags and the batch of the run without
failures if every swallowed error is harmless. -/
theorem failures_decide_nothing_iff {fails : Nat → Bool} {block : Block} {flags : TxFlags}
    {r : Block × UpdateBatch} {n : Nat} (hflags : block.txsFilter = .ok flags)
    (h : validateAndPrepareBatch fails hash db block mvcc = .ok (r, n)) :
    (∃ n₀, validateAndPrepareBatch (fun _ => false) hash db block mvcc = .ok (r, n₀)) ↔
      Harmless fails hash db block.header.number mvcc 0 block.data (flags, ∅) 0 := by
  obtain ⟨flags', hflags', h⟩ := bind_ok.mp h
  obtain rfl := Except.ok.inj (hflags.symm.trans hflags')
  obtain ⟨⟨st', n'⟩, hloop, h⟩ := bind_ok.mp h
  cases h
  rw [← validateLoop_run hloop]
  obtain ⟨n₀, hnever⟩ := validateAndPrepareBatch_of_never hash db mvcc block
  have hpure : Ledger.validateAndPrepareBatch hash db block mvcc =
      Ledger.validateLoop hash db block.header.number mvcc 0 block.data (flags, ∅) >>= fun st =>
        .ok (block.setFilter st.1, st.2) := by
    rw [Ledger.validateAndPrepareBatch, hflags]
    rfl
  rw [hnever, hpure]
  constructor
  · intro h
    obtain ⟨n1, h⟩ := h
    obtain ⟨r, hr, h⟩ := bind_ok.mp h
    cases h
    obtain ⟨st, hst, hr⟩ := bind_ok.mp hr
    obtain ⟨hblock, hupdates⟩ := mk.inj (Except.ok.inj hr)
    -- the block determines its flags
    obtain ⟨fs, hfs, -⟩ := bind_ok.mp hflags
    have hst1 : (block.setFilter st.1).metadataAt MetadataIndex.transactionsFilter = .ok st.1 :=
      Block.metadataAt_set_ok hfs
    rw [hblock, Block.metadataAt_set_ok hfs] at hst1
    rw [hst, Prod.ext (Except.ok.inj hst1).symm hupdates]
  · intro h
    rw [h]
    exact ⟨n₀, rfl⟩

/-- Reads of the keys `a` and `b`, the second with a version that is not current. -/
def staleRwSet : TxRwSet := [⟨str "cc", [⟨str "a", some ⟨0, 0⟩⟩, ⟨str "b", some ⟨9, 9⟩⟩], [], []⟩]

/-- The first read fails, and the second is stale. -/
theorem failing_read_before_stale_harmless :
    ∃ r n n₀, validateAndPrepareBatch (fun n => n = 0) sha256 fourKeys
        (blockWith staleRwSet.toProtoBytes) true = .ok (r, n) ∧
      validateAndPrepareBatch (fun _ => false) sha256 fourKeys
        (blockWith staleRwSet.toProtoBytes) true = .ok (r, n₀) := by
  have hok : ((validateAndPrepareBatch (fun n => n = 0) sha256 fourKeys
      (blockWith staleRwSet.toProtoBytes) true).map (·.2)).toOption = some 1 := by
    decide +kernel
  have hflags : (blockWith staleRwSet.toProtoBytes).txsFilter = .ok [0] := rfl
  have hcarried : carriedRwSet (txWith staleRwSet.toProtoBytes).envelope = some staleRwSet := by
    decide +kernel
  have hconflict : Ledger.validateTx sha256 fourKeys ∅ staleRwSet = .ok .mvccReadConflict := by
    decide +kernel
  cases hrun : validateAndPrepareBatch (fun n => n = 0) sha256 fourKeys
      (blockWith staleRwSet.toProtoBytes) true with
  | error f =>
    rw [hrun] at hok
    cases hok
  | ok p =>
    have hharmless : Harmless (fun n => n = 0) sha256 fourKeys 1 true 0
        [(txWith staleRwSet.toProtoBytes).envelope] ([0], ∅) 0 := by
      refine ⟨fun _ rw hrw _ _ => ?_, fun _ _ _ => trivial⟩
      obtain rfl := Option.some.inj (hcarried.symm.trans hrw)
      exact hconflict
    obtain ⟨n₀, hnever⟩ := (failures_decide_nothing_iff hflags hrun).mpr hharmless
    exact ⟨p.1, p.2, n₀, rfl, hnever⟩

/-- A read with the current version whose `GetState` fails: the transaction is flagged a
conflict, and valid without the failure. -/
theorem failing_read_flags_conflict :
    let rw : TxRwSet := [⟨str "cc", [⟨str "a", some ⟨0, 0⟩⟩], [], []⟩]
    ((validateAndPrepareBatch (fun n => n = 0) sha256 fourKeys
        (blockWith rw.toProtoBytes) true).map (·.1.1.metadata)).toOption =
        some (some [[], [], [mvccReadConflict.toByte], []]) ∧
      ((validateAndPrepareBatch (fun _ => false) sha256 fourKeys
        (blockWith rw.toProtoBytes) true).map (·.1.1.metadata)).toOption =
        some (some [[], [], [valid.toByte], []]) := by
  decide +kernel

end Fallible

end FabricOev.Ledger
