import FabricOev.Ledger.Simulator
import FabricOev.Ledger.VersionSoundness

/-!
# Isolation of simulators

A simulator holds the read side of `commitRWLock` from `NewTxSimulator` to `Done`, and
`LockBasedTxMgr.Commit` takes the write side. The replay of a scheduled block is flushed to the same
database without the lock. The system here is one simulator and one committing thread, interleaved
at the calls of the simulator and the disk writes of the commit.
-/

namespace FabricOev.Ledger

open Go Protos Bench Lib List CommitStep MapOrder Option KvLedger StateDb

inductive DiskWrite where
  | addBlock
  | flush
  | txmgrCommit
  | historyCommit
deriving DecidableEq, Repr

/-- The write happens with `commitRWLock` held. -/
def DiskWrite.locked : DiskWrite → Bool
  | .txmgrCommit => true
  | _ => false

def diskWrites (cfg : Config) (block : Block) : List DiskWrite :=
  if cfg.benchReplayEnabled = true ∧ (parseBatchSchedule block).isSome = true then
    [.addBlock, .flush, .txmgrCommit, .historyCommit]
  else [.addBlock, .txmgrCommit, .historyCommit]

/-- The writes a commit makes, each with the ledger it leaves on disk. -/
def CommitStep.writes (c : CommitStep) (l : KvLedger) : List (DiskWrite × KvLedger) :=
  (diskWrites c.cfg c.block).zip (c.run l).rest

/-- An open simulator, and what its calls have brought from the database. -/
structure Session where
  sim : TxSimulator
  log : List (SimCall × Answer VersionedValue)

structure System where
  ledger : KvLedger
  writes : List (DiskWrite × KvLedger)
  queue : List CommitStep
  session : Option Session

def System.init (l : KvLedger) (cs : List CommitStep) : System := ⟨l, [], cs, none⟩

/-- `GetStateMultipleKeys` is a call for each of its keys: the database reads them one by
one. -/
inductive System.Step (qc : QueryConfig) (hash : Bytes → Bytes) : System → System → Prop
  | newTxSimulator {s : System} : s.session = none →
      Step qc hash s { s with session := some ⟨TxSimulator.new, []⟩ }
  | call {s : System} {m : Session} {c : SimCall} {a : Answer VersionedValue}
      {sim : TxSimulator} : s.session = some m →
      m.sim.call qc hash s.ledger.stateDb c = .ok (a, sim) →
      Step qc hash s { s with session := some ⟨sim, m.log ++ [(c, a)]⟩ }
  | done {s : System} : Step qc hash s { s with session := none }
  | commit {s : System} {c : CommitStep} {cs : List CommitStep} : s.writes = [] →
      s.queue = c :: cs → Step qc hash s { s with writes := c.writes s.ledger, queue := cs }
  | write {s : System} {w : DiskWrite} {l : KvLedger} {ws : List (DiskWrite × KvLedger)} :
      s.writes = (w, l) :: ws → (w.locked = true → s.session = none) →
      Step qc hash s { s with ledger := l, writes := ws }

abbrev System.Reachable (qc : QueryConfig) (hash : Bytes → Bytes) : System → System → Prop :=
  Relation.ReflTransGen (System.Step qc hash)

def ledgerAfter (l : KvLedger) (cs : List CommitStep) : KvLedger :=
  cs.foldl (fun l c => (c.run l).ledger) l

/-- The open simulator's calls have the answers of one of the states between two blocks. -/
def System.Isolated (qc : QueryConfig) (hash : Bytes → Bytes) (l : KvLedger)
    (cs : List CommitStep) (s : System) : Prop :=
  ∀ m, s.session = some m → ∃ n sim,
    TxSimulator.new.calls qc hash (ledgerAfter l (cs.take n)).stateDb (m.log.map (·.1)) =
      .ok (m.log.map (·.2), sim)

/-- The flush of a replay changes nothing that a simulator reads. -/
def FlushesNothing (c : CommitStep) (l : KvLedger) : Prop :=
  c.cfg.benchReplayEnabled = true → ∀ s, parseBatchSchedule c.block = some s →
    ∀ a updates, ScheduledWrites c.cfg c.order l c.block s a updates →
      ∀ ns key, a.flush.getState ns key = l.stateDb.getState ns key

def RunFlushesNothing (l : KvLedger) (cs : List CommitStep) : Prop :=
  ∀ n c, cs[n]? = some c → FlushesNothing c (ledgerAfter l (cs.take n))

/-! ## The writes of a commit -/

def SameContents (p q : StateDb) : Prop := ∀ ns key, p.getState ns key = q.getState ns key

theorem SameContents.refl (p : StateDb) : SameContents p p := fun _ _ => rfl

variable {p q : StateDb} {last : KvLedger} {hist : List KvLedger}

theorem SameContents.trans {r : StateDb} (h : SameContents p q) (h' : SameContents q r) :
    SameContents p r :=
  fun ns key => (h ns key).trans (h' ns key)

theorem SameContents.symm (h : SameContents p q) : SameContents q p := fun ns key => (h ns key).symm

/-- The state stays that of `p`, until a write under the lock makes it that of `q`. -/
inductive Switches (q : StateDb) : StateDb → List (DiskWrite × KvLedger) → Prop
  | nil {p : StateDb} : SameContents p q → Switches q p []
  | keep {p : StateDb} {w : DiskWrite} {l : KvLedger} {ws : List (DiskWrite × KvLedger)} :
      SameContents p l.stateDb → Switches q l.stateDb ws → Switches q p ((w, l) :: ws)
  | switch {p : StateDb} {w : DiskWrite} {l : KvLedger} {ws : List (DiskWrite × KvLedger)} :
      w.locked = true → SameContents l.stateDb q → Switches q l.stateDb ws →
      Switches q p ((w, l) :: ws)

def kindsOf (n : Nat) : List DiskWrite :=
  .addBlock :: (replicate n .flush ++ [.txmgrCommit, .historyCommit])

theorem switches_history (hlen : hist.length ≤ 1) (hhist : ∀ p ∈ hist, p.stateDb = last.stateDb) :
    Switches last.stateDb last.stateDb ([DiskWrite.historyCommit].zip hist) := by
  cases hist with
  | nil => exact .nil (.refl _)
  | cons p hist =>
    obtain rfl : hist = [] := length_eq_zero_iff.mp (by simpa using hlen)
    have hp := hhist p (by simp)
    exact .keep (hp ▸ .refl _) (.nil (hp ▸ .refl _))

/-- Flushes that change nothing, then the locked write, then the history. -/
theorem switches_flushes {mids : List KvLedger} (hlen : hist.length ≤ 1)
    (hhist : ∀ p ∈ hist, p.stateDb = last.stateDb) (hmids : ∀ l ∈ mids, SameContents p l.stateDb) :
    Switches last.stateDb p ((replicate mids.length DiskWrite.flush ++
        [DiskWrite.txmgrCommit, DiskWrite.historyCommit]).zip (mids ++ [last] ++ hist)) := by
  induction mids generalizing p with
  | nil => exact .switch rfl (.refl _) (switches_history hlen hhist)
  | cons l mids ih =>
    have hl := hmids l (by simp)
    refine .keep hl (ih fun l' hl' => ?_)
    exact hl.symm.trans (hmids l' (by simp [hl']))

section Trail

variable {l : KvLedger} {block : Block} {rest : List KvLedger} {steps : List StateDb} {n : Nat}

theorem CommitTrail.length_le (h : CommitTrail l block rest steps)
    (hn : steps = [] ∨ steps.length = n + 1) : rest.length ≤ (kindsOf n).length := by
  cases h with
  | failed => simp
  | stored => simp [kindsOf]
  | @written l1 last mids hist h1 hnum hblocks hlen hhist =>
    have hmids : mids.length = n := by simpa using hn
    simp only [kindsOf, length_append, length_cons, length_nil, length_replicate]
    omega

/-- A commit whose flushes change nothing switches the state once, under the lock. -/
theorem CommitTrail.switches (h : CommitTrail l block rest steps)
    (hn : steps = [] ∨ steps.length = n + 1)
    (hsame : ∀ db ∈ steps.dropLast, SameContents l.stateDb db) :
    Switches (rest.getLastD l).stateDb l.stateDb ((kindsOf n).zip rest) := by
  obtain ⟨hlast, -, -⟩ := h.ledger
  rw [hlast]
  cases h with
  | failed => exact .nil (.refl _)
  | stored h1 =>
    apply Switches.keep (h1 ▸ .refl _)
    simp only [zipWith_nil_right]
    exact .nil (h1 ▸ .refl _)
  | @written l1 last mids hist h1 hnum hblocks hlen hhist =>
    have hmids : mids.length = n := by simpa using hn
    subst hmids
    rw [map_append, map_singleton, getLastD_concat]
    rw [map_append, map_singleton, dropLast_concat] at hsame
    apply Switches.keep (h1 ▸ .refl _)
    apply switches_flushes hlen fun p hp => (hhist p hp).2
    intro p hp
    rw [h1]
    exact hsame _ (mem_map_of_mem hp)

end Trail

theorem CommitStep.trail (c : CommitStep) (l : KvLedger) :
    ∃ n steps, diskWrites c.cfg c.block = kindsOf n ∧ (c.run l).start = l ∧
      CommitTrail l c.block (c.run l).rest steps ∧ (steps = [] ∨ steps.length = n + 1) ∧
      (FlushesNothing c l → ∀ db ∈ steps.dropLast, SameContents l.stateDb db) := by
  have hmvcc : diskWrites c.cfg c.block = kindsOf 0 → c.run l = commitMvcc c.cfg l c.block →
      ∃ n steps, diskWrites c.cfg c.block = kindsOf n ∧ (c.run l).start = l ∧
        CommitTrail l c.block (c.run l).rest steps ∧ (steps = [] ∨ steps.length = n + 1) ∧
        (FlushesNothing c l → ∀ db ∈ steps.dropLast, SameContents l.stateDb db) := by
    intro hkinds hrun
    obtain ⟨hstart, htrail⟩ := commitMvcc_trail c.cfg l c.block
    rw [hrun]
    cases htrail with
    | inl ht => exact ⟨0, [], hkinds, hstart, ht, .inl rfl, fun _ => by simp⟩
    | inr ht =>
      obtain ⟨updates, -, ht⟩ := ht
      exact ⟨0, _, hkinds, hstart, ht, .inr rfl, fun _ => by simp⟩
  by_cases hbench : c.cfg.benchReplayEnabled = true
  · cases hs : parseBatchSchedule c.block with
    | none =>
      apply hmvcc
      · simp [diskWrites, hs, kindsOf]
      · simp [run, commit, hbench, hs]
    | some s =>
      have hkinds : diskWrites c.cfg c.block = kindsOf 1 := by simp [diskWrites, hs, hbench, kindsOf]
      have hrun : c.run l = commitWithBatchSchedule c.cfg c.order l c.block s := by
        simp [run, commit, hbench, hs]
      obtain ⟨hstart, htrail⟩ := commitSchedule_trail c.cfg c.order l c.block s
      rw [hrun]
      cases htrail with
      | inl ht => exact ⟨1, [], hkinds, hstart, ht.1, .inl rfl, fun _ => by simp⟩
      | inr ht =>
        obtain ⟨a, updates, hw, ht⟩ := ht
        refine ⟨1, _, hkinds, hstart, ht, .inr rfl, fun h db hdb => ?_⟩
        obtain rfl : db = a.flush := by simpa using hdb
        exact fun ns key => (h hbench s hs a updates hw ns key).symm
  · apply hmvcc
    · simp [diskWrites, hbench, kindsOf]
    · simp [run, commit, hbench]

theorem CommitStep.writes_last (c : CommitStep) (l : KvLedger) :
    ((c.writes l).map (·.2)).getLastD l = (c.run l).ledger := by
  obtain ⟨n, steps, hkinds, hstart, htrail, hn, -⟩ := c.trail l
  rw [writes, hkinds, map_snd_zip (htrail.length_le hn), CommitRun.ledger, hstart]

theorem CommitStep.writes_switch {c : CommitStep} {l : KvLedger} (h : FlushesNothing c l) :
    Switches (c.run l).ledger.stateDb l.stateDb (c.writes l) := by
  obtain ⟨n, steps, hkinds, hstart, htrail, hn, hsame⟩ := c.trail l
  rw [writes, hkinds, CommitRun.ledger, hstart]
  exact htrail.switches hn (hsame h)

section Invariant

variable {qc : QueryConfig} {hash : Bytes → Bytes} {l : KvLedger} {cs : List CommitStep}
  {s : System}

theorem ledgerAfter_take_succ {n : Nat} {c : CommitStep} (h : cs[n]? = some c) :
    ledgerAfter l (cs.take (n + 1)) = (c.run (ledgerAfter l (cs.take n))).ledger := by
  rw [take_add_one, h, ledgerAfter, foldl_append]
  rfl

/-- What the simulator was told is what it would be told by `db`. -/
def Session.Saw (qc : QueryConfig) (hash : Bytes → Bytes) (m : Session) (db : StateDb) : Prop :=
  TxSimulator.new.calls qc hash db (m.log.map (·.1)) = .ok (m.log.map (·.2), m.sim)

theorem Session.Saw.congr {m : Session} (h : m.Saw qc hash p) (hpq : SameContents p q) :
    m.Saw qc hash q := by
  unfold Session.Saw
  rw [← TxSimulator.calls_congr hpq]
  exact h

/-- The state is one between two blocks, and the simulator has seen no other. -/
structure System.Coherent (qc : QueryConfig) (hash : Bytes → Bytes) (l : KvLedger)
    (cs : List CommitStep) (s : System) : Prop where
  commits : ∃ n, s.queue = cs.drop n ∧
    (s.writes.map (·.2)).getLastD s.ledger = ledgerAfter l (cs.take n) ∧
    Switches (ledgerAfter l (cs.take n)).stateDb s.ledger.stateDb s.writes
  between : ∃ n, SameContents s.ledger.stateDb (ledgerAfter l (cs.take n)).stateDb
  saw : ∀ m, s.session = some m → m.Saw qc hash s.ledger.stateDb

theorem System.Coherent.step (hrun : RunFlushesNothing l cs) {s' : System}
    (h : s.Coherent qc hash l cs) (hstep : s.Step qc hash s') : s'.Coherent qc hash l cs := by
  obtain ⟨⟨n, hqueue, hlast, hsw⟩, hbetween, hsaw⟩ := h
  cases hstep with
  | newTxSimulator hnone =>
    refine ⟨⟨n, hqueue, hlast, hsw⟩, hbetween, fun m hm => ?_⟩
    cases hm
    rfl
  | @call m c a sim hm hcall =>
    refine ⟨⟨n, hqueue, hlast, hsw⟩, hbetween, fun m' hm' => ?_⟩
    obtain rfl := some.inj hm'
    have hcalls := TxSimulator.calls_concat (hsaw m hm) hcall
    simpa [Session.Saw] using hcalls
  | done => exact ⟨⟨n, hqueue, hlast, hsw⟩, hbetween, fun m hm => by cases hm⟩
  | @commit c queue hw hq =>
    rw [hw] at hlast
    have hledger : s.ledger = ledgerAfter l (cs.take n) := hlast
    rw [hqueue] at hq
    have hc : cs[n]? = some c := by
      rw [← head?_drop, hq]
      rfl
    have htail : queue = cs.drop (n + 1) := by
      rw [← tail_drop, hq]
      rfl
    have hflush : FlushesNothing c s.ledger := hledger ▸ hrun n c hc
    refine ⟨⟨n + 1, htail, ?_, ?_⟩, hbetween, hsaw⟩
    · rw [ledgerAfter_take_succ hc, ← hledger]
      exact c.writes_last s.ledger
    · rw [ledgerAfter_take_succ hc, ← hledger]
      exact writes_switch hflush
  | @write w l' ws hw hlock =>
    rw [hw] at hlast hsw
    rw [map_cons, getLastD_cons] at hlast
    cases hsw with
    | keep hsame hrest =>
      refine ⟨⟨n, hqueue, hlast, hrest⟩, ?_, fun m hm => (hsaw m hm).congr hsame⟩
      obtain ⟨k, hk⟩ := hbetween
      exact ⟨k, hsame.symm.trans hk⟩
    | switch hlocked hsame hrest =>
      -- the lock is free, so nobody is reading
      refine ⟨⟨n, hqueue, hlast, hrest⟩, ⟨n, hsame⟩, fun m hm => ?_⟩
      rw [hlock hlocked] at hm
      cases hm

theorem System.Coherent.reachable (hrun : RunFlushesNothing l cs)
    (h : System.Reachable qc hash (System.init l cs) s) : s.Coherent qc hash l cs := by
  induction h with
  | refl =>
    refine ⟨⟨0, rfl, rfl, .nil (.refl _)⟩, ⟨0, .refl _⟩, fun m hm => ?_⟩
    cases hm
  | tail _ hstep ih => exact ih.step hrun hstep

end Invariant

section Flush

variable {qc : QueryConfig} {hash : Bytes → Bytes} {l : KvLedger} {cs : List CommitStep}
  {c : CommitStep}

variable (qc hash l cs)

/-- With no simulator open, the writes left of a commit go through. -/
theorem reachable_writes (ws : List (DiskWrite × KvLedger)) (queue : List CommitStep) :
    System.Reachable qc hash ⟨l, ws, queue, none⟩ ⟨(ws.map (·.2)).getLastD l, [], queue, none⟩ := by
  induction ws generalizing l with
  | nil => exact .refl
  | cons w ws ih =>
    rw [map_cons, getLastD_cons]
    exact .head (.write rfl fun _ => rfl) (ih w.2)

/-- The first `n` commits go through one after the other. -/
theorem reachable_commits (n : Nat) (hn : n ≤ cs.length) :
    System.Reachable qc hash (System.init l cs) ⟨ledgerAfter l (cs.take n), [], cs.drop n, none⟩ := by
  induction n with
  | zero => exact .refl
  | succ n ih =>
    have hlt : n < cs.length := by omega
    have hc : cs[n]? = some cs[n] := getElem?_eq_getElem hlt
    have hqueue : cs.drop n = cs[n] :: cs.drop (n + 1) := drop_eq_getElem_cons hlt
    have hwrites := reachable_writes qc hash (ledgerAfter l (cs.take n))
      (cs[n].writes (ledgerAfter l (cs.take n))) (cs.drop (n + 1))
    rw [writes_last, ← ledgerAfter_take_succ hc] at hwrites
    exact ((ih (by omega)).tail (.commit rfl hqueue)).trans hwrites

variable {qc hash l cs}

theorem CommitStep.writes_flush {l : KvLedger} {s : BatchSchedule} {a : StateDbAdapter}
    {updates : UpdateBatch} (hbench : c.cfg.benchReplayEnabled = true)
    (hs : parseBatchSchedule c.block = some s)
    (hw : ScheduledWrites c.cfg c.order l c.block s a updates) :
    ∃ l1 l2 ws, c.writes l = (.addBlock, l1) :: (.flush, l2) :: ws ∧ l1.stateDb = l.stateDb ∧
      l2.stateDb = a.flush := by
  have hrun : c.run l = commitWithBatchSchedule c.cfg c.order l c.block s := by
    simp [run, commit, hbench, hs]
  have hkinds : diskWrites c.cfg c.block = kindsOf 1 := by simp [diskWrites, hs, hbench, kindsOf]
  obtain ⟨-, htrail⟩ := hw.trail
  generalize hrest : (commitWithBatchSchedule c.cfg c.order l c.block s).rest = rest at htrail
  generalize hsteps : [a.flush, a.flush.applyUpdates updates (blockHeight c.block)] = steps at htrail
  rw [writes, hkinds, hrun, hrest]
  cases htrail with
  | failed | stored => cases hsteps
  | @written l1 last mids hist h1 =>
    cases mids with
    | nil => simp at hsteps
    | cons l2 mids =>
      have hl2 := (cons.inj hsteps).1
      exact ⟨l1, l2, _, rfl, h1, hl2.symm⟩

/-- A simulator that reads a key before and after a flush that changes it has not seen one
state. -/
theorem exists_not_isolated (qc : QueryConfig) (hash : Bytes → Bytes) {n : Nat}
    (hc : cs[n]? = some c) (hflush : ¬ FlushesNothing c (ledgerAfter l (cs.take n))) :
    ∃ s, System.Reachable qc hash (System.init l cs) s ∧ ¬ s.Isolated qc hash l cs := by
  unfold FlushesNothing at hflush
  push Not at hflush
  obtain ⟨hbench, sched, hs, a, updates, hw, ns, key, hne⟩ := hflush
  obtain ⟨l1, l2, ws, hwrites, h1, h2⟩ := writes_flush hbench hs hw
  obtain ⟨hlt, hcn⟩ := List.getElem?_eq_some_iff.mp hc
  have hqueue : cs.drop n = c :: cs.drop (n + 1) := hcn ▸ drop_eq_getElem_cons hlt
  -- open, read, commit up to the flush, read again
  have hopen := (reachable_commits qc hash l cs n hlt.le).tail (.newTxSimulator rfl)
  have hread := hopen.tail (.call (c := .getState ns key) rfl rfl)
  have hcommit := hread.tail (.commit rfl hqueue)
  have hblock := hcommit.tail (.write hwrites fun h => by cases h)
  have hflushed := hblock.tail (.write rfl fun h => by cases h)
  refine ⟨_, hflushed.tail (.call (c := .getState ns key) rfl rfl), fun hiso => ?_⟩
  obtain ⟨k, sim, hcalls⟩ := hiso _ rfl
  have hanswers := congrArg Prod.fst (Except.ok.inj hcalls)
  obtain ⟨hfirst, hrest⟩ := cons.inj hanswers
  have hsecond := (cons.inj hrest).1
  have hsame := Answer.value.inj (hfirst.symm.trans hsecond)
  rw [h2] at hsame
  exact hne hsame.symm

end Flush

/-- Every interleaving of a simulator with the commits shows it a single state between two
blocks, exactly if no scheduled block flushes a change. -/
theorem isolated_iff (qc : QueryConfig) (hash : Bytes → Bytes) (l : KvLedger)
    (cs : List CommitStep) :
    (∀ s, System.Reachable qc hash (System.init l cs) s → s.Isolated qc hash l cs) ↔
      RunFlushesNothing l cs := by
  constructor
  · intro h n c hc
    by_contra hflush
    obtain ⟨s, hs, hnot⟩ := exists_not_isolated qc hash hc hflush
    exact hnot (h s hs)
  · intro hrun s hs m hm
    have hcoh := System.Coherent.reachable hrun hs
    obtain ⟨n, hn⟩ := hcoh.between
    exact ⟨n, m.sim, (hcoh.saw m hm).congr hn⟩

/-- A replay creates an account while a simulator is open. -/
theorem simulator_sees_flush :
    let block := firstBlock [createAccountTx (str "t1") (str "a")] [0] (scheduleOf [[str "t1"]])
    ∃ s, System.Reachable ⟨true, 50⟩ id (System.init empty [⟨replayConfig, sorted, block⟩]) s ∧
      ¬ s.Isolated ⟨true, 50⟩ id empty [⟨replayConfig, sorted, block⟩] := by
  intro block
  let sched := scheduleOf [[str "t1"]]
  refine exists_not_isolated ⟨true, 50⟩ id (n := 0) rfl fun hflush => ?_
  have hparse : parseBatchSchedule block = some sched := by decide +kernel
  have hread : ((replaySchedule sorted block sched empty).map fun a =>
      a.flush.getState ccSmallBank (str "account:a")).toOption =
      some (some ⟨AccountRecord.marshal ⟨str "a", str "name", 1, 1⟩, ⟨0, 0⟩⟩) := by
    decide +kernel
  have hprepare : ((prepareWithBatchSchedule replayConfig sorted empty block
      sched).bind fun p => addBlock [] p.1).isOk = true := by decide +kernel
  cases hr : replaySchedule sorted block sched empty with
  | error f =>
    rw [hr] at hread
    cases hread
  | ok a =>
    rw [hr] at hread
    cases hp : prepareWithBatchSchedule replayConfig sorted empty block sched with
    | error f =>
      rw [hp] at hprepare
      cases hprepare
    | ok p =>
      rw [hp] at hprepare
      cases hadd : addBlock [] p.1 with
      | error f =>
        rw [Except.bind, hadd] at hprepare
        cases hprepare
      | ok blocks =>
        have hsame := hflush rfl sched hparse a p.2 ⟨hr, p.1, blocks, hp, hadd⟩ ccSmallBank
          (str "account:a")
        exact absurd ((some.inj hread).symm.trans hsame) (by decide)

end FabricOev.Ledger
