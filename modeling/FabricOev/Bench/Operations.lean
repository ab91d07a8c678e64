import FabricOev.Bench.Enabled

/-!
# SmallBank operations

The calls `replaySmallBank` accepts, read into a type of operations, and what each
operation writes. A call that is replayed is a call that reads as an operation which
performs.
-/

namespace FabricOev.Bench

open Go

inductive SbOp where
  | createAccount (id name : GoString) (checking savings : Int64)
  | depositChecking (id : GoString) (amount : Int64)
  | transactSavings (id : GoString) (amount : Int64)
  | writeCheck (id : GoString) (amount : Int64)
  | amalgamate (src dst : GoString)
  | sendPayment (src dst : GoString) (amount : Int64)
  | balance
deriving DecidableEq, Repr

namespace SbOp

/-- The operation on one account with the amount its arguments give. -/
def parseOne (op : GoString → Int64 → SbOp) : List GoString → Option SbOp
  | id :: arg :: _ => (parseAmount arg).toOption.map (op id)
  | _ => none

/-- The operation a function name and its arguments stand for. -/
def parse (fn : GoString) (args : List GoString) : Option SbOp :=
  if fn = str "DepositChecking" then parseOne .depositChecking args
  else if fn = str "TransactSavings" then parseOne .transactSavings args
  else if fn = str "WriteCheck" then parseOne .writeCheck args
  else if fn = str "Amalgamate" then
    match args with
    | src :: dst :: _ => some (.amalgamate src dst)
    | _ => none
  else if fn = str "SendPayment" then
    match args with
    | src :: dst :: arg :: _ => (parseAmount arg).toOption.map (.sendPayment src dst)
    | _ => none
  else if fn = str "CreateAccount" then
    match args with
    | id :: name :: arg :: arg' :: _ => do
      let checking ← (parseAmount arg).toOption
      let savings ← (parseAmount arg').toOption
      some (.createAccount id name checking savings)
    | _ => none
  else if fn = str "Balance" then some .balance
  else none

end SbOp

/-- What an operation writes on a state where it succeeds. -/
inductive SbOp.Performs (db : View) : SbOp → WriteMap → Prop
  | createAccount {id name n n'} : Performs db (.createAccount id name n n')
        ((∅ : WriteMap).insert (sbKey id) (AccountRecord.marshal ⟨id, name, n, n'⟩))
  | depositChecking {id n acc acc'} : HasAccount db id acc →
      Bench.depositChecking acc n = .ok acc' →
      Performs db (.depositChecking id n) ((∅ : WriteMap).insert (sbKey id) acc'.marshal)
  | transactSavings {id n acc acc'} : HasAccount db id acc →
      Bench.transactSavings acc n = .ok acc' →
      Performs db (.transactSavings id n) ((∅ : WriteMap).insert (sbKey id) acc'.marshal)
  | writeCheck {id n acc acc'} : HasAccount db id acc → Bench.writeCheck acc n = .ok acc' →
      Performs db (.writeCheck id n) ((∅ : WriteMap).insert (sbKey id) acc'.marshal)
  | amalgamate {src dst acc acc' r} : HasAccount db src acc → HasAccount db dst acc' →
      Bench.amalgamate acc acc' = .ok r →
      Performs db (.amalgamate src dst)
        (((∅ : WriteMap).insert (sbKey src) r.1.marshal).insert (sbKey dst) r.2.marshal)
  | sendPayment {src dst n acc acc' r} : HasAccount db src acc → HasAccount db dst acc' →
      Bench.sendPayment n acc acc' = .ok r →
      Performs db (.sendPayment src dst n)
        (((∅ : WriteMap).insert (sbKey src) r.1.marshal).insert (sbKey dst) r.2.marshal)
  | balance : Performs db .balance ∅

variable {db : View} {args : List GoString} {ws : WriteMap}

theorem sbReplayOne_performs {name : String}
    {f : AccountRecord → Int64 → Except GoError AccountRecord} (op : GoString → Int64 → SbOp)
    (h : sbReplayOne name f db args = .ok ws) :
    ∃ id n acc acc', SbOp.parseOne op args = some (op id n) ∧ HasAccount db id acc ∧
      f acc n = .ok acc' ∧ (∅ : WriteMap).insert (sbKey id) acc'.marshal = ws := by
  match args with
  | [] | [_] => cases h
  | id :: arg :: rest =>
    obtain ⟨n, acc, acc', hn, hacc, hf, hws⟩ := sbReplayOne_ok.mp h
    refine ⟨id, n, acc, acc', ?_, sbGetAccount_eq_ok.mp hacc, hf, hws⟩
    rw [SbOp.parseOne, hn]
    rfl

theorem sbReplayTwo_performs
    {f : AccountRecord → AccountRecord → Except GoError (AccountRecord × AccountRecord)}
    {src dst : GoString} (h : sbReplayTwo f db src dst = .ok ws) :
    ∃ acc acc' r, HasAccount db src acc ∧ HasAccount db dst acc' ∧ f acc acc' = .ok r ∧
      ((∅ : WriteMap).insert (sbKey src) r.1.marshal).insert (sbKey dst) r.2.marshal = ws := by
  obtain ⟨acc, acc', src', dst', hs, hd, hf, hws⟩ := sbReplayTwo_ok.mp h
  exact ⟨acc, acc', (src', dst'), sbGetAccount_eq_ok.mp hs, sbGetAccount_eq_ok.mp hd, hf, hws⟩

/-- Every call that is replayed is an operation, and its write map is what that performs. -/
theorem smallBank_performs {fn : GoString} (h : replaySmallBank db fn args = .ok ws) :
    ∃ op, SbOp.parse fn args = some op ∧ op.Performs db ws := by
  unfold replaySmallBank at h
  unfold SbOp.parse
  split_ifs at h ⊢
  · obtain ⟨id, n, acc, acc', hop, hacc, hf, rfl⟩ := sbReplayOne_performs .depositChecking h
    exact ⟨_, hop, .depositChecking hacc hf⟩
  · obtain ⟨id, n, acc, acc', hop, hacc, hf, rfl⟩ := sbReplayOne_performs .transactSavings h
    exact ⟨_, hop, .transactSavings hacc hf⟩
  · obtain ⟨id, n, acc, acc', hop, hacc, hf, rfl⟩ := sbReplayOne_performs .writeCheck h
    exact ⟨_, hop, .writeCheck hacc hf⟩
  · unfold sbReplayAmalgamate at h
    split at h
    · obtain ⟨acc, acc', r, hs, hd, hf, rfl⟩ := sbReplayTwo_performs h
      exact ⟨_, rfl, .amalgamate hs hd hf⟩
    · cases h
  · unfold sbReplaySendPayment at h
    split at h
    · obtain ⟨n, hn, h⟩ := bind_ok.mp h
      obtain ⟨acc, acc', r, hs, hd, hf, rfl⟩ := sbReplayTwo_performs h
      refine ⟨_, ?_, .sendPayment hs hd hf⟩
      simp only [hn]
      rfl
    · cases h
  · unfold sbReplayCreateAccount at h
    split at h
    · obtain ⟨n, hn, h⟩ := bind_ok.mp h
      obtain ⟨n', hn', h⟩ := bind_ok.mp h
      cases h
      refine ⟨_, ?_, .createAccount⟩
      simp only [hn, hn']
      rfl
    · cases h
  · cases h
    exact ⟨_, rfl, .balance⟩

end FabricOev.Bench
