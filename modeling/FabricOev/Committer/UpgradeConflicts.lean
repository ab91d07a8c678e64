import FabricOev.Committer.TxValidator
import FabricOev.Ledger.LevelDb
import FabricOev.Ledger.ValidatorFacts

/-!
# Upgrades and invocations in one block

`invalidTXsForUpgradeCC` ranges over its maps in any order, and the flags it leaves depend on
the entries only. It tells chaincodes apart by their keys, which chaincodes of different names
on different channels may share, and the second loop does not spare the upgrades.
-/

namespace FabricOev.Committer

open Go Ledger List Result Prod TxFlags

variable {β : Type} {names upgrades seen es : List (Nat × ChaincodeInstance)}
  {flags mid : TxFlags} {P Q : Nat → Prop} {i j : Nat}

/-- A later transaction upgrades the chaincode that transaction `i` upgrades. -/
def Superseded (f : ChaincodeInstance → β) (upgrades : List (Nat × ChaincodeInstance))
    (i : Nat) : Prop :=
  ∃ e ∈ upgrades, ∃ e' ∈ upgrades, e.1 = i ∧ i < e'.1 ∧ f e.2 = f e'.2

/-- Transaction `i` invokes a chaincode that is upgraded. -/
def InvokesUpgraded (f : ChaincodeInstance → β) (names upgrades : List (Nat × ChaincodeInstance))
    (i : Nat) : Prop :=
  ∃ e ∈ names, e.1 = i ∧ ∃ e' ∈ upgrades, f e.2 = f e'.2

/-- The flags are set to `CHAINCODE_VERSION_CONFLICT` where `P` holds. -/
def Conflicts (P : Nat → Prop) (flags flags' : TxFlags) : Prop :=
  ∀ i, (P i → flags'[i]? = some TxValidationCode.chaincodeVersionConflict.toByte) ∧
    (¬ P i → flags'[i]? = flags[i]?)

variable (h : Conflicts P flags mid)
include h

theorem Conflicts.congr (heq : ∀ i, Q i ↔ P i) : Conflicts Q flags mid := by
  intro i
  rw [heq]
  exact h i

theorem Conflicts.lt (hj : j < flags.length) : j < mid.length := by
  by_contra hge
  have hnone : mid[j]? = none := getElem?_eq_none (by omega)
  by_cases hp : P j
  · rw [(h j).1 hp] at hnone
    cases hnone
  · rw [(h j).2 hp, getElem?_eq_getElem hj] at hnone
    cases hnone

theorem Conflicts.setFlag (hj : j < flags.length) :
    ∃ mid', mid.setFlag j .chaincodeVersionConflict = .ok mid' ∧
      Conflicts (fun i => P i ∨ i = j) flags mid' := by
  have hlt := h.lt hj
  refine ⟨_, setFlag_eq_ok.mpr ⟨hlt, rfl⟩, fun i => ?_⟩
  by_cases hij : i = j
  · subst hij
    simp [hlt]
  · simpa [hij, Ne.symm hij] using h i

omit h

/-- The map of the first loop after the entries `seen`. -/
structure LastUpgrades (seen : List (Nat × ChaincodeInstance)) (final : List (GoString × Nat)) :
    Prop where
  absent : ∀ k, final.lookup k = none → ∀ e ∈ seen, e.2.key ≠ k
  present : ∀ k j, final.lookup k = some j →
    (∃ cc, (j, cc) ∈ seen ∧ cc.key = k) ∧ ∀ e ∈ seen, e.2.key = k → e.1 ≤ j

section Entry

variable {final : List (GoString × Nat)} {cc : ChaincodeInstance}

theorem LastUpgrades.push (h : LastUpgrades seen final)
    (hmax : ∀ e ∈ seen, e.2.key = cc.key → e.1 ≤ i) :
    LastUpgrades (seen ++ [(i, cc)]) ((cc.key, i) :: final) := by
  have hlook : ∀ k, ((cc.key, i) :: final).lookup k =
      if k = cc.key then some i else final.lookup k := by
    intro k
    by_cases hk : k = cc.key
    · simp [hk]
    · simp [lookup_cons, hk, beq_false_of_ne]
  constructor
  · intro k hk
    have := h.absent k
    grind
  · intro k j hk
    have := h.present k
    grind

theorem LastUpgrades.keep (h : LastUpgrades seen final) (hlook : final.lookup cc.key = some j)
    (hij : i ≤ j) : LastUpgrades (seen ++ [(i, cc)]) final := by
  constructor
  · intro k hk
    have := h.absent k
    grind
  · intro k j hk
    have := h.present k
    grind

end Entry

theorem superseded_concat {f : ChaincodeInstance → β} {cc : ChaincodeInstance} {x : Nat} :
    Superseded f (seen ++ [(i, cc)]) x ↔ Superseded f seen x ∨
      (∃ e ∈ seen, i = x ∧ x < e.1 ∧ f cc = f e.2) ∨
        ∃ e ∈ seen, e.1 = x ∧ x < i ∧ f e.2 = f cc := by
  have hself : ¬ (i = x ∧ x < i) := by omega
  simp only [Superseded, mem_append, mem_singleton, or_and_right, and_or_left, exists_or,
    exists_eq_left, and_true, hself, or_false, or_assoc]

theorem upgradeLoop_spec {final : List (GoString × Nat)} (h : LastUpgrades seen final)
    (hc : Conflicts (Superseded ChaincodeInstance.key seen) flags mid)
    (hnd : ((seen ++ es).map fst).Nodup) (hlt : ∀ e ∈ seen ++ es, e.1 < flags.length) :
    ∃ final' mid', upgradeLoop es final mid = .ok (final', mid') ∧
      LastUpgrades (seen ++ es) final' ∧
      Conflicts (Superseded ChaincodeInstance.key (seen ++ es)) flags mid' := by
  induction es generalizing seen final mid with
  | nil => exact ⟨final, mid, rfl, by rwa [append_nil], by rwa [append_nil]⟩
  | cons e es ih =>
    obtain ⟨i, cc⟩ := e
    rw [upgradeLoop]
    have hi : i < flags.length := hlt (i, cc) (by simp)
    cases hlook : final.lookup cc.key with
    | none =>
      have hother := h.absent _ hlook
      rw [append_cons] at hnd hlt ⊢
      refine ih (h.push fun e he hk => absurd hk (hother e he)) (hc.congr fun x => ?_) hnd hlt
      rw [superseded_concat]
      grind
    | some j =>
      obtain ⟨⟨cc', hj, hkey⟩, hmax⟩ := h.present _ _ hlook
      have hne : j ≠ i := by
        rw [map_append, map_cons] at hnd
        exact fun h => (nodup_append.mp hnd).2.2 j (mem_map_of_mem hj) i (by simp) h
      by_cases hji : j < i
      · obtain ⟨mid', hset, hc'⟩ := hc.setFlag (hlt (j, cc') (by simp [hj]))
        rw [append_cons] at hnd hlt ⊢
        simp only [if_pos hji, hset]
        refine ih (h.push fun e he hk => (hmax e he hk).trans hji.le) (hc'.congr fun x => ?_)
          hnd hlt
        simp only [Superseded]
        grind
      · obtain ⟨mid', hset, hc'⟩ := hc.setFlag hi
        rw [append_cons] at hnd hlt ⊢
        simp only [if_neg hji, hset]
        refine ih (h.keep hlook (by omega)) (hc'.congr fun x => ?_) hnd hlt
        simp only [Superseded]
        grind

theorem Conflicts.valid_iff (h : Conflicts P flags mid) :
    FlaggedValid mid i ↔ FlaggedValid flags i ∧ ¬ P i := by
  unfold FlaggedValid
  by_cases hp : P i
  · rw [(h i).1 hp]
    simp only [hp, not_true, and_false, iff_false]
    decide
  · rw [(h i).2 hp]
    simp only [hp, not_false_iff, and_true]

def Flagged (names upgrades : List (Nat × ChaincodeInstance)) (flags : TxFlags) (i : Nat) : Prop :=
  Superseded ChaincodeInstance.key upgrades i ∨
    FlaggedValid flags i ∧ InvokesUpgraded ChaincodeInstance.key names upgrades i

theorem invokeLoop_spec {final : List (GoString × Nat)}
    (hfinal : ∀ k, (final.lookup k).isSome ↔ ∃ e ∈ upgrades, k = e.2.key)
    (hc : Conflicts (Flagged seen upgrades flags) flags mid) (hlt : ∀ e ∈ es, e.1 < flags.length) :
    ∃ mid', invokeLoop final es mid = .ok mid' ∧
      Conflicts (Flagged (seen ++ es) upgrades flags) flags mid' := by
  induction es generalizing seen mid with
  | nil => exact ⟨mid, rfl, by rwa [append_nil]⟩
  | cons e es ih =>
    obtain ⟨i, cc⟩ := e
    obtain ⟨hi, hrest⟩ := forall_mem_cons.mp hlt
    have hstep : ∀ x, Flagged (seen ++ [(i, cc)]) upgrades flags x ↔ Flagged seen upgrades flags x ∨
          FlaggedValid flags x ∧ x = i ∧ (final.lookup cc.key).isSome := by
      intro x
      rw [hfinal]
      simp only [Flagged, InvokesUpgraded, mem_append, mem_singleton, or_and_right, exists_or,
        exists_eq_left, and_or_left, or_assoc, eq_comm (a := i)]
    rw [append_cons, invokeLoop]
    by_cases hsome : (final.lookup cc.key).isSome
    · have hvalid := isValid_eq mid i
      rw [if_pos (hc.lt hi)] at hvalid
      by_cases hv : FlaggedValid mid i
      · obtain ⟨mid', hset, hc'⟩ := hc.setFlag hi
        simp only [hsome, if_true, hvalid, decide_eq_true hv, ok_bind, hset]
        refine ih (hc'.congr fun x => ?_) hrest
        have hflag := (hc.valid_iff.mp hv).1
        grind
      · simp only [hsome, if_true, hvalid, decide_eq_false hv, ok_bind]
        refine ih (hc.congr fun x => ?_) hrest
        rw [hc.valid_iff] at hv
        grind
    · simp only [if_neg hsome]
      refine ih (hc.congr fun x => ?_) hrest
      rw [hstep]
      simp [hsome]

section Maps

variable (hnd : (upgrades.map fst).Nodup) (hu : ∀ e ∈ upgrades, e.1 < flags.length)
  (hn : ∀ e ∈ names, e.1 < flags.length)

include hnd hu hn in
theorem invalidTxs_spec :
    ∃ flags', invalidTxsForUpgradeCc names upgrades flags = .ok flags' ∧
      Conflicts (Flagged names upgrades flags) flags flags' := by
  unfold invalidTxsForUpgradeCc
  by_cases hnil : upgrades = []
  · exact ⟨flags, if_pos hnil, fun i => by simp [Flagged, Superseded, InvokesUpgraded, hnil]⟩
  · have hlast0 : LastUpgrades [] [] := ⟨by simp, by simp⟩
    have hc0 : Conflicts (Superseded ChaincodeInstance.key []) flags flags :=
      fun i => by simp [Superseded]
    obtain ⟨final, mid, hloop, hlast, hc⟩ := upgradeLoop_spec hlast0 hc0 hnd hu
    have hcalls : Conflicts (Flagged [] upgrades flags) flags mid :=
      hc.congr fun i => by simp [Flagged, InvokesUpgraded]
    rw [if_neg hnil, hloop]
    refine invokeLoop_spec (fun k => ?_) hcalls hn
    cases hlook : final.lookup k with
    | none => simpa [eq_comm] using hlast.absent k hlook
    | some j =>
      obtain ⟨cc, hcc, hkey⟩ := (hlast.present k j hlook).1
      simpa using ⟨j, cc, hcc, hkey.symm⟩

/-- Upgrades but for the last one of a chaincode, and valid invocations of an upgraded chaincode. -/
def Stale (names upgrades : List (Nat × ChaincodeInstance)) (flags : TxFlags) (i : Nat) : Prop :=
  Superseded id upgrades i ∨
    (∀ e ∈ upgrades, e.1 ≠ i) ∧ FlaggedValid flags i ∧ InvokesUpgraded id names upgrades i

theorem Stale.flagged (h : Stale names upgrades flags i) : Flagged names upgrades flags i := by
  rcases h with ⟨e, he, e', he', hi, hlt, hf⟩ | ⟨-, hv, e, he, hi, e', he', hf⟩
  · exact .inl ⟨e, he, e', he', hi, hlt, congrArg _ hf⟩
  · exact .inr ⟨hv, e, he, hi, e', he', congrArg _ hf⟩

theorem ChaincodeInstance.key_inj {c c' : ChaincodeInstance} (hc : 47 ∉ c.chaincodeName)
    (hc' : 47 ∉ c'.chaincodeName) (h : c.key = c'.key) : c = c' := by
  simp only [key, append_assoc] at h
  obtain ⟨hname, hchain⟩ := append_sep_inj hc hc' h
  exact mk.injEq .. ▸ ⟨hchain, hname⟩

/-- Without a slash in a name the keys tell the chaincodes apart. -/
theorem Flagged.stale (hplain : ∀ e ∈ names ++ upgrades, 47 ∉ e.2.chaincodeName)
    (hup : ∀ e ∈ upgrades, ¬ InvokesUpgraded id names upgrades e.1)
    (h : Flagged names upgrades flags i) : Stale names upgrades flags i := by
  obtain ⟨hn, hu⟩ := forall_mem_append.mp hplain
  rcases h with ⟨e, he, e', he', hi, hlt, hf⟩ | ⟨hv, e, he, hi, e', he', hf⟩
  · exact .inl ⟨e, he, e', he', hi, hlt, ChaincodeInstance.key_inj (hu e he) (hu e' he') hf⟩
  · have hinvokes : InvokesUpgraded id names upgrades i :=
      ⟨e, he, hi, e', he', ChaincodeInstance.key_inj (hn e he) (hu e' he') hf⟩
    exact .inr ⟨fun u hmem hui => hup u hmem (hui ▸ hinvokes), hv, hinvokes⟩

include hnd hu hn in
/-- The order of the maps does not matter. The flags are the right ones exactly if every transaction
that the keys make out to be stale is, or has the flag already; and so it is if there is no slash in
a name and no upgrade invokes an upgraded chaincode. -/
theorem invalidTxs_resolve_iff :
    ∃ flags', (∀ names' upgrades', names'.Perm names → upgrades'.Perm upgrades →
        invalidTxsForUpgradeCc names' upgrades' flags = .ok flags') ∧
      (Conflicts (Stale names upgrades flags) flags flags' ↔
        ∀ i, Flagged names upgrades flags i → Stale names upgrades flags i ∨
          flags[i]? = some TxValidationCode.chaincodeVersionConflict.toByte) ∧
      ((∀ e ∈ names ++ upgrades, 47 ∉ e.2.chaincodeName) →
        (∀ e ∈ upgrades, ¬ InvokesUpgraded id names upgrades e.1) →
          Conflicts (Stale names upgrades flags) flags flags') := by
  obtain ⟨flags', hok, hc⟩ := invalidTxs_spec hnd hu hn
  refine ⟨flags', fun names' upgrades' hpn hpu => ?_, ⟨fun hstale i hi => ?_, fun hcond i => ?_⟩,
    fun hplain hup => hc.congr fun i => ⟨Stale.flagged, Flagged.stale hplain hup⟩⟩
  · have hnd' := (hpu.map fst).nodup_iff.mpr hnd
    obtain ⟨flags'', hok', hc'⟩ := invalidTxs_spec hnd'
      (fun e he => hu e (hpu.mem_iff.mp he)) (fun e he => hn e (hpn.mem_iff.mp he))
    have hc'' : Conflicts (Flagged names upgrades flags) flags flags'' := hc'.congr fun i => by
      simp only [Flagged, Superseded, InvokesUpgraded, hpu.mem_iff, hpn.mem_iff]
    rw [hok']
    refine congrArg _ (ext_getElem? fun i => ?_)
    by_cases hi : Flagged names upgrades flags i
    · rw [(hc i).1 hi, (hc'' i).1 hi]
    · rw [(hc i).2 hi, (hc'' i).2 hi]
  · by_cases hs : Stale names upgrades flags i
    · exact .inl hs
    · exact .inr (((hstale i).2 hs).symm.trans ((hc i).1 hi))
  · refine ⟨fun hs => (hc i).1 hs.flagged, fun hs => ?_⟩
    by_cases hi : Flagged names upgrades flags i
    · rw [(hc i).1 hi, (hcond i hi).resolve_left hs]
    · exact (hc i).2 hi

end Maps

/-- Two upgrades of a chaincode, and an invocation of it, in one order of the upgrades. -/
theorem second_upgrade_kept :
    let cc : ChaincodeInstance := ⟨str "ch", str "cc"⟩
    ∃ flags', invalidTxsForUpgradeCc [(2, cc)] [(1, cc), (0, cc)] (new 3) = .ok flags' ∧
      Conflicts (Stale [(2, cc)] [(0, cc), (1, cc)] (new 3)) (new 3) flags' := by
  intro cc
  obtain ⟨flags', hall, -, hplain⟩ :=
    @invalidTxs_resolve_iff [(2, cc)] [(0, cc), (1, cc)] (new 3) (by decide) (by decide) (by decide)
  refine ⟨flags', hall _ _ .rfl (.swap ..), hplain (by decide) ?_⟩
  simp [InvokesUpgraded]

/-- Chaincodes of different names on different channels, with one key. -/
theorem distinct_upgrades_conflict :
    let upgrades : List (Nat × ChaincodeInstance) :=
      [(0, ⟨str "c", str "a/b"⟩), (1, ⟨str "b/c", str "a"⟩)]
    invalidTxsForUpgradeCc [] upgrades (new 2) = .ok [18, 0] ∧
      ¬ Conflicts (Stale [] upgrades (new 2)) (new 2) [18, 0] := by
  refine ⟨by decide +kernel, fun hstale => ?_⟩
  have hkept := (hstale 0).2 (by
    unfold Stale Superseded InvokesUpgraded
    decide +kernel)
  cases hkept

end FabricOev.Committer
