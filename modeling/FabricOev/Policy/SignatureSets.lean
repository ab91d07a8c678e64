import FabricOev.Policy.Cauthdsl
import Mathlib.Data.List.Perm.Subperm
import Mathlib.Data.List.Flatten

/-!
# Order, extra signatures and repeated signatures

A leaf uses up the first free entry that suits it, as the documentation of policies says
under "Limitations". So the order of a signature set matters, and so do further entries,
unless no entry suits two principals and the gates do not compete for entries. Marks belong
to positions and not to identities: an identity that appears twice is counted twice.
-/

namespace FabricOev.Policy

open Go Protos Lib ThresholdTree List Result Function

variable {I : Type} {deserializer : IdentityDeserializer I} {sd : SignedData} {used : Marked}
  {p : MSPPrincipal}

/-! ## Free entries as a counted supply -/

variable (deserializer) in
def freeFor (used : Marked) (p : MSPPrincipal) : Nat :=
  used.countP fun e => !e.2 && Suits deserializer p e.1

variable (deserializer) in
def OnePrincipal (ps : List MSPPrincipal) (signatureSet : List SignedData) : Prop :=
  ∀ sd ∈ signatureSet, ∀ p ∈ ps, ∀ q ∈ ps,
    Suits deserializer p sd = true → Suits deserializer q sd = true → p = q

theorem freeFor_unmarked (signatureSet : List SignedData) (p : MSPPrincipal) :
    freeFor deserializer (signatureSet.map (·, false)) p =
      signatureSet.countP (Suits deserializer p) := by
  rw [freeFor, countP_map]
  rfl

theorem freeFor_mark (front back : Marked) (p : MSPPrincipal) :
    freeFor deserializer (front ++ (sd, false) :: back) p =
      freeFor deserializer (front ++ (sd, true) :: back) p +
        if Suits deserializer p sd = true then 1 else 0 := by
  simp only [freeFor, countP_append, countP_cons, Bool.not_false, Bool.not_true,
    Bool.true_and, Bool.false_and]
  split
  · simp
    omega
  · simp

theorem freeFor_eq_zero :
    freeFor deserializer used p = 0 ↔
      ∀ sd, (sd, false) ∈ used → Suits deserializer p sd = false := by
  rw [freeFor, countP_eq_zero]
  constructor
  · intro h sd hsd
    simpa using h (sd, false) hsd
  · intro h e he
    obtain ⟨sd, used⟩ := e
    cases used with
    | true => simp
    | false => simpa using h sd he

/-- A leaf takes one from the count of its principal and leaves the other counts. -/
theorem takeFirst_rel {ps : List MSPPrincipal} {signatureSet : List SignedData}
    (hone : OnePrincipal deserializer ps signatureSet) (hp : p ∈ ps) {c : MSPPrincipal → Nat}
    (h : used.map (·.1) = signatureSet ∧ ∀ q ∈ ps, c q = freeFor deserializer used q) :
    Option.Rel
      (fun used c => used.map (·.1) = signatureSet ∧ ∀ q ∈ ps, c q = freeFor deserializer used q)
      (takeFirst deserializer p used) (consume p c) := by
  obtain ⟨hset, hc⟩ := h
  obtain ⟨front, sd, back, rfl, hs, heq⟩ | ⟨hnone, heq⟩ := takeFirst_cases deserializer p used
  · have hcp := hc p hp
    rw [freeFor_mark, if_pos hs] at hcp
    rw [heq, consume_of_pos (by omega)]
    refine .some ⟨by simpa using hset, fun q hq => ?_⟩
    by_cases hqp : q = p
    · subst hqp
      rw [update_self, hcp]
      omega
    · have hsd : sd ∈ signatureSet := by
        rw [← hset]
        simp
      have hqs : Suits deserializer q sd ≠ true := fun hqs => hqp (hone sd hsd q hq p hp hqs hs)
      rw [update_of_ne hqp, hc q hq, freeFor_mark, if_neg hqs]
      omega
  · rw [heq, consume_of_eq_zero ((hc p hp).trans (freeFor_eq_zero.mpr hnone))]
    exact .none

theorem eval_counts (t : ThresholdTree MSPPrincipal) {signatureSet : List SignedData}
    (hone : OnePrincipal deserializer t.leaves signatureSet) :
    (t.eval (takeFirst deserializer) (signatureSet.map (·, false))).isSome =
      (t.eval consume fun p => signatureSet.countP (Suits deserializer p)).isSome := by
  have hinit : (signatureSet.map (·, false)).map (·.1) = signatureSet ∧
      ∀ p ∈ t.leaves, signatureSet.countP (Suits deserializer p) =
        freeFor deserializer (signatureSet.map (·, false)) p := by
    refine ⟨?_, fun p _ => (freeFor_unmarked signatureSet p).symm⟩
    rw [map_map]
    exact map_id signatureSet
  have hrel := eval_rel t (fun p hp _ _ h => takeFirst_rel hone hp h) hinit
  generalize t.eval (takeFirst deserializer) (signatureSet.map (·, false)) = o at hrel
  generalize (t.eval consume fun p => signatureSet.countP (Suits deserializer p)) = o' at hrel
  cases hrel <;> rfl

/-- If no entry suits two principals of the policy, the order of a signature set does not matter;
if its gates do not compete either, further entries do no harm. -/
theorem accepts_of_subperm {sigPolicy : SignaturePolicyEnvelope} {policy : CompiledPolicy}
    (hpolicy : newPolicy deserializer sigPolicy = .ok policy) {S T : List SignedData}
    (hone : OnePrincipal deserializer sigPolicy.tree.leaves T) (hST : S.Subperm T) :
    (S.Perm T → (policy.Accepts S ↔ policy.Accepts T)) ∧
      (Tolerant sigPolicy.tree → policy.Accepts S → policy.Accepts T) := by
  have honeS : OnePrincipal deserializer sigPolicy.tree.leaves S :=
    fun sd hsd => hone sd (hST.subset hsd)
  rw [accepts_iff hpolicy, accepts_iff hpolicy, eval_counts _ honeS, eval_counts _ hone]
  constructor
  · intro hperm
    simp only [hperm.countP_eq]
  · intro htolerant
    exact htolerant.eval _ fun p _ => hST.countP_le _

instance (policy : CompiledPolicy) (signatureSet : List SignedData) :
    Decidable (policy.Accepts signatureSet) :=
  inferInstanceAs (Decidable (evaluate (some policy) signatureSet = .ok ()))

/-- An MSP whose principals list their identities; a signature is the identity itself. -/
def rosterMsp : IdentityDeserializer Bytes where
  deserializeIdentity b := some b
  satisfiesPrincipal identity p := identity.all p.principal.contains
  verify identity _ signature := identity == signature

def signedBy (x : UInt8) : SignedData := ⟨[], [x], [x]⟩

/-- The policies of the examples are over principals 0, 1, ... given as rosters. -/
def rosterPolicy (rosters : List Bytes) (rule : SignaturePolicy) : SignaturePolicyEnvelope :=
  ⟨0, rule, rosters.map (⟨0, ·⟩)⟩

theorem accepts_either_order :
    ∃ policy, newPolicy rosterMsp (rosterPolicy [[1], [2]] (.nOutOf 2 [.signedBy 0, .signedBy 1])) =
      .ok policy ∧ policy.Accepts [signedBy 2, signedBy 3, signedBy 1] := by
  obtain ⟨policy, hpolicy⟩ : ∃ policy, newPolicy rosterMsp
      (rosterPolicy [[1], [2]] (.nOutOf 2 [.signedBy 0, .signedBy 1])) = .ok policy := ⟨_, rfl⟩
  refine ⟨policy, hpolicy, (accepts_of_subperm hpolicy (S := [signedBy 1, signedBy 2]) ?_ ?_).2 ?_ ?_⟩
  · unfold OnePrincipal
    decide
  · decide
  · exact .settled (Settled.flat 2 [(⟨0, [1]⟩ : MSPPrincipal), ⟨0, [2]⟩])
  · cases hpolicy
    decide

/-- `2 of [Member, Admin]` with an administrator who is also a member: the administrator's
signature in front is used up by the `Member` leaf. `2 of [3 of [A, B, C], A, B]` with
disjoint principals: a further signature of `C` lets the inner gate use up all three. -/
theorem order_and_extra_matter :
    (∃ policy, newPolicy rosterMsp
        (rosterPolicy [[1, 2], [2]] (.nOutOf 2 [.signedBy 0, .signedBy 1])) = .ok policy ∧
      policy.Accepts [signedBy 1, signedBy 2] ∧ ¬ policy.Accepts [signedBy 2, signedBy 1]) ∧
    (∃ policy, newPolicy rosterMsp (rosterPolicy [[1], [2], [3]] (.nOutOf 2
          [.nOutOf 3 [.signedBy 0, .signedBy 1, .signedBy 2], .signedBy 0, .signedBy 1])) =
          .ok policy ∧
      policy.Accepts [signedBy 1, signedBy 2] ∧
      ¬ policy.Accepts [signedBy 1, signedBy 2, signedBy 3]) :=
  ⟨⟨_, rfl, by decide, by decide⟩, ⟨_, rfl, by decide, by decide⟩⟩

/-! ## Repeated signatures -/

variable (deserializer) in
def SignedFor (signatureSet : List SignedData) (p : MSPPrincipal) (x : I) : Prop :=
  ∃ sd ∈ signatureSet, deserializer.deserializeIdentity sd.identity = some x ∧
    deserializer.satisfiesPrincipal x p = true ∧
    deserializer.verify x sd.data sd.signature = true

theorem suits_iff :
    Suits deserializer p sd = true ↔ ∃ x, deserializer.deserializeIdentity sd.identity = some x ∧
        deserializer.satisfiesPrincipal x p = true ∧
        deserializer.verify x sd.data sd.signature = true := by
  unfold Suits
  cases deserializer.deserializeIdentity sd.identity with
  | none | some x => simp

theorem takeFirst_takes (signatureSet : List SignedData) :
    Takes (takeFirst deserializer)
      (fun p (i : Nat) => ∃ sd, signatureSet[i]? = some sd ∧ Suits deserializer p sd = true)
      (fun used i => (used[i]?.map (·.2)) = some true)
      (fun used => used.map (·.1) = signatureSet) where
  keeps {p used used'} hset h := by
    obtain ⟨front, sd, back, rfl, -, heq⟩ | ⟨-, heq⟩ := takeFirst_cases deserializer p used
    · cases heq.symm.trans h
      simpa using hset
    · cases heq.symm.trans h
  unit {p used used'} hset h := by
    obtain ⟨front, sd, back, rfl, hs, heq⟩ | ⟨-, heq⟩ := takeFirst_cases deserializer p used
    · cases heq.symm.trans h
      refine ⟨front.length, ⟨sd, ?_, hs⟩, by simp, fun i => ?_⟩
      · rw [← hset]
        simp
      · by_cases hi : i = front.length
        · simp [hi]
        · by_cases hlt : i < front.length
          · simp [hi, getElem?_append_left hlt]
          · have hge : front.length ≤ i := Nat.le_of_not_lt hlt
            obtain ⟨k, hk⟩ : ∃ k, i - front.length = k + 1 := ⟨i - front.length - 1, by omega⟩
            simp [hi, getElem?_append_right hge, hk]
    · cases heq.symm.trans h

/-- Enough copies: every leaf that is still to come finds a free entry if any entry of the
set suits it. -/
theorem takeFirst_supplies_copies (signatureSet : List SignedData) :
    Supplies (takeFirst deserializer) (SignedFor deserializer signatureSet) fun ps used =>
      ∀ p x, SignedFor deserializer signatureSet p x → ps.length ≤ freeFor deserializer used p where
  pass h p x hx := Nat.le_of_succ_le (h p x hx)
  after {q ps used used'} h ht p x hx := by
    have hle := h p x hx
    rw [length_cons] at hle
    obtain ⟨front, sd, back, rfl, -, heq⟩ | ⟨-, heq⟩ := takeFirst_cases deserializer q used
    · cases heq.symm.trans ht
      rw [freeFor_mark] at hle
      split at hle <;> omega
    · cases heq.symm.trans ht
  serve {p ps used x} h hx := by
    obtain ⟨front, sd, back, rfl, -, heq⟩ | ⟨hnone, -⟩ := takeFirst_cases deserializer p used
    · rw [heq]
      rfl
    · have hle := h p x hx
      rw [freeFor_eq_zero.mpr hnone, length_cons] at hle
      omega

variable (deserializer) in
/-- No signer of the set satisfies the principals of two of the leaves. -/
def LeavesApart (ps : List MSPPrincipal) (signatureSet : List SignedData) : Prop :=
  ps.Pairwise fun p q => ∀ x, SignedFor deserializer signatureSet p x →
    ¬ SignedFor deserializer signatureSet q x

/-- Leaves that no signer can serve twice do not take each other's entries. -/
theorem takeFirst_supplies_apart (signatureSet : List SignedData) :
    Supplies (takeFirst deserializer) (SignedFor deserializer signatureSet) fun ps used =>
      used.map (·.1) = signatureSet ∧ LeavesApart deserializer ps signatureSet ∧
        ∀ p ∈ ps, ∀ x, SignedFor deserializer signatureSet p x →
          ∃ sd, (sd, false) ∈ used ∧ Suits deserializer p sd = true where
  pass h := ⟨h.1, (pairwise_cons.mp h.2.1).2, fun p hp => h.2.2 p (mem_cons_of_mem _ hp)⟩
  after {p ps used used'} h ht := by
    obtain ⟨hset, hapart, hfree⟩ := h
    obtain ⟨hp, hps⟩ := pairwise_cons.mp hapart
    refine ⟨(takeFirst_takes signatureSet).keeps hset ht, hps, fun q hq x hx => ?_⟩
    obtain ⟨sd', hmem, hsq⟩ := hfree q (mem_cons_of_mem p hq) x hx
    obtain ⟨front, sd, back, rfl, hsp, heq⟩ | ⟨-, heq⟩ := takeFirst_cases deserializer p used
    · cases heq.symm.trans ht
      have hsd : sd ∈ signatureSet := by
        rw [← hset]
        simp
      -- the entry that is marked suits `p`, so it is not the one found for `q`
      have hne : sd' ≠ sd := by
        rintro rfl
        obtain ⟨y, hy, hyp⟩ := suits_iff.mp hsp
        obtain ⟨z, hz, hzq⟩ := suits_iff.mp hsq
        cases hy.symm.trans hz
        exact hp q hq y ⟨sd', hsd, hy, hyp⟩ ⟨sd', hsd, hy, hzq⟩
      refine ⟨sd', ?_, hsq⟩
      simpa [hne] using hmem
    · cases heq.symm.trans ht
  serve {p ps used x} h hx := by
    obtain ⟨sd, hmem, hs⟩ := h.2.2 p mem_cons_self x hx
    obtain ⟨front, sd', back, rfl, -, heq⟩ | ⟨hnone, -⟩ := takeFirst_cases deserializer p used
    · rw [heq]
      rfl
    · rw [hnone sd hmem] at hs
      cases hs

/-- `ys` is `xs` with some of its entries repeated. -/
def Repeats {α : Type} (xs ys : List α) : Prop := xs.Sublist ys ∧ ys ⊆ xs

/-- The update is accepted by the policy: `verifyDeltaSet` evaluates the policy on the
signatures as signed data. -/
def CompiledPolicy.Authorizes (policy : CompiledPolicy) (update : ConfigUpdateEnvelope) : Prop :=
  ∃ signatureSet, update.asSignedData = .ok signatureSet ∧ policy.Accepts signatureSet

variable (deserializer) in
/-- Distinct signers of the set, one for each leaf that is counted, meet every gate. -/
def MetByDistinct (sigPolicy : SignaturePolicyEnvelope) (signatureSet : List SignedData) : Prop :=
  ∃ xs, Meets (SignedFor deserializer signatureSet) sigPolicy.tree xs ∧ xs.Nodup

variable (deserializer) in
/-- Signers of the set, possibly the same for several leaves, meet every gate. -/
def MetWithReuse (sigPolicy : SignaturePolicyEnvelope) (signatureSet : List SignedData) : Prop :=
  ∃ xs, Meets (SignedFor deserializer signatureSet) sigPolicy.tree xs

section Updates

variable {sigPolicy : SignaturePolicyEnvelope} {policy : CompiledPolicy}
  {update : ConfigUpdateEnvelope} {signatureSet : List SignedData} {α : Type}

variable (deserializer) in
def signerAt (signatureSet : List SignedData) (i : Nat) : Option I :=
  signatureSet[i]?.bind fun sd => deserializer.deserializeIdentity sd.identity

theorem countP_flatten_replicate (f : α → Bool) (xs : List α) (n : Nat) :
    (replicate n xs).flatten.countP f = n * xs.countP f := by
  induction n with
  | zero => simp
  | succ n ih => rw [replicate_succ, flatten_cons, countP_append, ih]; ring

variable (hpolicy : newPolicy deserializer sigPolicy = .ok policy) {sigs : List ConfigSignature}
include hpolicy

theorem accepts_of_apart (hapart : LeavesApart deserializer sigPolicy.tree.leaves signatureSet)
    (hmet : MetWithReuse deserializer sigPolicy signatureSet) : policy.Accepts signatureSet := by
  obtain ⟨xs, hxs⟩ := hmet
  rw [accepts_iff hpolicy]
  refine (takeFirst_supplies_apart signatureSet).succeeds_alone ?_ hxs
  refine ⟨by simp [comp_def], hapart, fun p _ x hx => ?_⟩
  obtain ⟨sd, hsd, hx⟩ := hx
  exact ⟨sd, mem_map_of_mem hsd, suits_iff.mpr ⟨x, hx⟩⟩

/-- The positions that an accepted set uses, with the identities that signed there. -/
theorem met_of_accepts (h : policy.Accepts signatureSet) :
    ∃ is xs, Meets (SignedFor deserializer signatureSet) sigPolicy.tree xs ∧ is.Nodup ∧
      List.Forall₂ (fun i x => signerAt deserializer signatureSet i = some x) is xs := by
  rw [accepts_iff hpolicy] at h
  obtain ⟨used, hused⟩ := Option.isSome_iff_exists.mp h
  obtain ⟨-, is, hm, hnd, -⟩ :=
    eval_meets (takeFirst_takes signatureSet) _ (by simp [comp_def]) hused
  have hsigner : ∀ p (i : Nat), (∃ sd, signatureSet[i]? = some sd ∧
      Suits deserializer p sd = true) → ∃ x, SignedFor deserializer signatureSet p x ∧
        signerAt deserializer signatureSet i = some x := by
    intro p i h
    obtain ⟨sd, hsd, hs⟩ := h
    obtain ⟨x, hx, hxp⟩ := suits_iff.mp hs
    exact ⟨x, ⟨sd, mem_of_getElem? hsd, hx, hxp⟩, by rw [signerAt, hsd]; exact hx⟩
  obtain ⟨xs, hxs, hrel⟩ := hm.lift hsigner
  exact ⟨is, xs, hxs, hnd, hrel⟩

/-- Where no identity signs twice, distinct positions are distinct signers. -/
theorem metByDistinct_of_accepts
    (hdistinct : ∀ i j x, signerAt deserializer signatureSet i = some x →
      signerAt deserializer signatureSet j = some x → i = j)
    (h : policy.Accepts signatureSet) : MetByDistinct deserializer sigPolicy signatureSet := by
  obtain ⟨is, xs, hxs, hnd, hrel⟩ := met_of_accepts hpolicy h
  refine ⟨xs, hxs, (rel_nodup ⟨fun i j x hi hj => hdistinct i j x hi hj, ?_⟩ hrel).mp hnd⟩
  exact fun i x y hx hy => Option.some.inj (hx.symm.trans hy)

theorem metWithReuse_of_accepts (h : policy.Accepts signatureSet) :
    MetWithReuse deserializer sigPolicy signatureSet := by
  obtain ⟨-, xs, hxs, -⟩ := met_of_accepts hpolicy h
  exact ⟨xs, hxs⟩

/-- With as many copies of the set as the policy has leaves, signers can be reused. -/
theorem accepts_copies (hmet : MetWithReuse deserializer sigPolicy signatureSet) :
    policy.Accepts (replicate (sigPolicy.tree.leaves.length + 1) signatureSet).flatten := by
  obtain ⟨xs, hxs⟩ := hmet
  rw [accepts_iff hpolicy]
  refine (takeFirst_supplies_copies signatureSet).succeeds_alone (fun p x hx => ?_) hxs
  obtain ⟨sd, hsd, hx⟩ := hx
  have hpos : 0 < signatureSet.countP (Suits deserializer p) :=
    countP_pos_iff.mpr ⟨sd, hsd, suits_iff.mpr ⟨x, hx⟩⟩
  rw [freeFor_unmarked, countP_flatten_replicate]
  exact Nat.le_trans (Nat.le_succ _) (Nat.le_mul_of_pos_right _ hpos)

omit hpolicy

theorem mem_asSignedData (h : update.asSignedData = .ok signatureSet) :
    sd ∈ signatureSet ↔ ∃ sig ∈ update.signatures, update.signedDataOf sig = .ok sd := by
  have hrow := mapM_eq_ok.mp h
  generalize update.signatures = sigs at hrow
  clear h
  induction hrow with
  | nil => simp
  | cons hsd _ ih => simp [ih, hsd, eq_comm]

/-- Repeating signatures adds no signer. -/
theorem signedFor_of_repeats {repeated : List SignedData}
    (hset : update.asSignedData = .ok signatureSet) (hrep : Repeats update.signatures sigs)
    (hsigs : ({ update with signatures := sigs } : ConfigUpdateEnvelope).asSignedData =
      .ok repeated) : SignedFor deserializer repeated = SignedFor deserializer signatureSet := by
  have hmem : ∀ sd, sd ∈ repeated ↔ sd ∈ signatureSet := by
    intro sd
    rw [mem_asSignedData hset, mem_asSignedData hsigs]
    constructor
    · rintro ⟨sig, hsig, hsd⟩
      exact ⟨sig, hrep.2 hsig, hsd⟩
    · rintro ⟨sig, hsig, hsd⟩
      exact ⟨sig, hrep.1.subset hsig, hsd⟩
  funext p x
  simp only [SignedFor, hmem]

theorem metWithReuse_of_repeats (hpolicy : newPolicy deserializer sigPolicy = .ok policy)
    (hset : update.asSignedData = .ok signatureSet) (hrep : Repeats update.signatures sigs)
    (h : policy.Authorizes { update with signatures := sigs }) :
    MetWithReuse deserializer sigPolicy signatureSet := by
  obtain ⟨repeated, hsigs, h⟩ := h
  obtain ⟨xs, hxs⟩ := metWithReuse_of_accepts hpolicy h
  rw [signedFor_of_repeats hset hrep hsigs] at hxs
  exact ⟨xs, hxs⟩

theorem asSignedData_copies (h : update.asSignedData = .ok signatureSet) (n : Nat) :
    ({ update with signatures := (replicate n update.signatures).flatten } :
        ConfigUpdateEnvelope).asSignedData = .ok (replicate n signatureSet).flatten := by
  refine mapM_eq_ok.mpr ?_
  have hrow := mapM_eq_ok.mp h
  induction n with
  | zero => exact .nil
  | succ n ih =>
    exact rel_append hrow ih

theorem repeats_copies (xs : List α) (n : Nat) : Repeats xs (replicate (n + 1) xs).flatten := by
  refine ⟨sublist_append_left .., ?_⟩
  intro x hx
  obtain hx | hx := mem_append.mp hx
  · exact hx
  · obtain ⟨ys, hys, hx⟩ := mem_flatten.mp hx
    rwa [eq_of_mem_replicate hys] at hx

/-- Under repetition, acceptance means that the signers meet the policy with reuse; so it
implies distinct signers exactly where reuse gains nothing. Where no signer satisfies two
leaves, repetition has no effect at all, and where nobody signs twice an accepted set has
distinct signers. -/
theorem counted_once_iff (hpolicy : newPolicy deserializer sigPolicy = .ok policy)
    (hset : update.asSignedData = .ok signatureSet) :
    ((∀ sigs, Repeats update.signatures sigs →
          policy.Authorizes { update with signatures := sigs } →
            MetByDistinct deserializer sigPolicy signatureSet) ↔
        (MetWithReuse deserializer sigPolicy signatureSet →
          MetByDistinct deserializer sigPolicy signatureSet)) ∧
      (LeavesApart deserializer sigPolicy.tree.leaves signatureSet →
        ∀ sigs, Repeats update.signatures sigs →
          policy.Authorizes { update with signatures := sigs } →
            policy.Authorizes update ∧ MetByDistinct deserializer sigPolicy signatureSet) ∧
      ((∀ i j x, signerAt deserializer signatureSet i = some x →
          signerAt deserializer signatureSet j = some x → i = j) →
        policy.Authorizes update → MetByDistinct deserializer sigPolicy signatureSet) := by
  refine ⟨⟨fun h hmet => ?_, fun h sigs hrep hauth => ?_⟩, fun hapart sigs hrep hauth => ?_,
    fun hdistinct hauth => ?_⟩
  · exact h _ (repeats_copies update.signatures _)
      ⟨_, asSignedData_copies hset _, accepts_copies hpolicy hmet⟩
  · exact h (metWithReuse_of_repeats hpolicy hset hrep hauth)
  · have hmet := metWithReuse_of_repeats hpolicy hset hrep hauth
    obtain ⟨xs, hxs⟩ := hmet
    exact ⟨⟨signatureSet, hset, accepts_of_apart hpolicy hapart ⟨xs, hxs⟩⟩,
      xs, hxs, hxs.nodup hapart⟩
  · obtain ⟨set', hset', h⟩ := hauth
    cases hset.symm.trans hset'
    exact metByDistinct_of_accepts hpolicy hdistinct h

theorem authorizes_iff (hset : update.asSignedData = .ok signatureSet) :
    policy.Authorizes update ↔ policy.Accepts signatureSet := by
  constructor
  · rintro ⟨set', hset', h⟩
    cases hset.symm.trans hset'
    exact h
  · intro h
    exact ⟨signatureSet, hset, h⟩

end Updates

/-- A signature by the identity with one byte; the header holds nothing but the creator. -/
def configSignature (x : UInt8) : ConfigSignature := ⟨[0x0A, 1, x], [x]⟩

theorem one_signature_each :
    ∃ policy, newPolicy rosterMsp (rosterPolicy [[1], [2]] (.nOutOf 2 [.signedBy 0, .signedBy 1])) =
      .ok policy ∧
      ∀ sigs, Repeats [configSignature 1, configSignature 2] sigs → policy.Authorizes ⟨[], sigs⟩ →
          policy.Authorizes ⟨[], [configSignature 1, configSignature 2]⟩ := by
  obtain ⟨policy, hpolicy⟩ : ∃ policy, newPolicy rosterMsp
      (rosterPolicy [[1], [2]] (.nOutOf 2 [.signedBy 0, .signedBy 1])) = .ok policy := ⟨_, rfl⟩
  have hset : (⟨[], [configSignature 1, configSignature 2]⟩ : ConfigUpdateEnvelope).asSignedData =
      .ok [⟨[0x0A, 1, 1], [1], [1]⟩, ⟨[0x0A, 1, 2], [2], [2]⟩] := by decide
  refine ⟨policy, hpolicy, fun sigs hrep hauth => ?_⟩
  refine ((counted_once_iff hpolicy hset).2.1 ?_ sigs hrep hauth).1
  refine pairwise_pair.mpr fun x hx hx' => ?_
  obtain ⟨sd, hsd, hx, hp, -⟩ := hx
  obtain ⟨-, -, -, hp', -⟩ := hx'
  cases hx
  have hboth : ∀ sd ∈ [(⟨[0x0A, 1, 1], [1], [1]⟩ : SignedData), ⟨[0x0A, 1, 2], [2], [2]⟩],
      ¬ (rosterMsp.satisfiesPrincipal sd.identity ⟨0, [1]⟩ = true ∧
        rosterMsp.satisfiesPrincipal sd.identity ⟨0, [2]⟩ = true) := by decide
  exact hboth sd hsd ⟨hp, hp'⟩

/-- `2 of [A, A]`: one signature of an `A` is not enough, the same signature twice is. -/
theorem same_signature_twice :
    ∃ policy, newPolicy rosterMsp (rosterPolicy [[1]] (.nOutOf 2 [.signedBy 0, .signedBy 0])) =
      .ok policy ∧
      ¬ policy.Authorizes ⟨[], [configSignature 1]⟩ ∧
      policy.Authorizes ⟨[], [configSignature 1, configSignature 1]⟩ ∧
      ¬ MetByDistinct rosterMsp (rosterPolicy [[1]] (.nOutOf 2 [.signedBy 0, .signedBy 0]))
        [⟨[0x0A, 1, 1], [1], [1]⟩] := by
  have hset : (⟨[], [configSignature 1]⟩ : ConfigUpdateEnvelope).asSignedData =
      .ok [⟨[0x0A, 1, 1], [1], [1]⟩] := by decide
  have hset' : (⟨[], [configSignature 1, configSignature 1]⟩ : ConfigUpdateEnvelope).asSignedData =
      .ok [⟨[0x0A, 1, 1], [1], [1]⟩, ⟨[0x0A, 1, 1], [1], [1]⟩] := by decide
  refine ⟨_, rfl, ?_, ?_, ?_⟩
  · rw [authorizes_iff hset]
    decide
  · rw [authorizes_iff hset']
    decide
  · rintro ⟨xs, hxs, hnd⟩
    have hone : ∀ p x, SignedFor rosterMsp [⟨[0x0A, 1, 1], [1], [1]⟩] p x → x = [1] := by
      intro p x hx
      obtain ⟨sd, hsd, hx, -⟩ := hx
      cases hx
      rw [mem_singleton.mp hsd]
    -- both leaves are counted, and both units are the same
    cases hxs with
    | gate h hn =>
      have hn : 2 ≤ (_ : Nat) := Int.ofNat_le.mp hn
      cases h with
      | skip h =>
        cases h with
        | skip h | use _ h => cases h; omega
      | use hr h =>
        cases h with
        | skip h => cases h; omega
        | use hr' h =>
          cases h
          cases hr with
          | leaf hx =>
            cases hr' with
            | leaf hx' =>
              rw [hone _ _ hx, hone _ _ hx'] at hnd
              revert hnd
              decide

end FabricOev.Policy
