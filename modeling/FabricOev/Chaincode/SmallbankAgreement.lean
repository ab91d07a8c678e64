import FabricOev.Bench.Enabled
import FabricOev.Chaincode.Smallbank
import FabricOev.Go.JsonStrings

/-!
# Replay against the SmallBank chaincode

The replay engine drops most of the contract's checks, so it agrees with the contract
exactly on the inputs that would have passed them: for every function, what has to hold
of the arguments and of the stored records whenever the replay goes through.
-/

namespace FabricOev.Chaincode

open Go Bench List AccountRecord Except Result Option

def isAccountKey (key : GoString) : Bool := (str "account:").isPrefixOf key

/-- Two puts under two pairs of keys are the same only under the same keys. -/
theorem insert_pair_inj {k1 k2 a1 a2 : GoString} {v1 v2 : Bytes} (hsame : k1 = k2 → a1 = a2)
    (hval : v1 = v2 → a1 = a2)
    (h : ((∅ : WriteMap).insert k1 v1).insert k2 v2 = ((∅ : WriteMap).insert a1 v1).insert a2 v2) :
    k1 = a1 ∧ k2 = a2 := by
  have hmem : ∀ k, k ∈ ((∅ : WriteMap).insert k1 v1).insert k2 v2 → k = a1 ∨ k = a2 := fun k hk =>
    mem_insert_insert (h ▸ hk)
  have hk1 := hmem k1 (by simp)
  have hk2 := hmem k2 (by simp)
  by_cases h2 : k2 = a2
  · refine ⟨?_, h2⟩
    rcases hk1 with h1 | h1
    · exact h1
    · rw [hsame (h1.trans h2.symm), h1]
  · -- crossed keys: the last put of the left side is the first one of the right
    have hcross : k2 = a1 := hk2.resolve_right h2
    have hne : a1 ≠ a2 := fun he => h2 (hcross.trans he)
    have hc : ¬ compare a2 a1 = .eq := fun he => hne (Std.LawfulEqOrd.eq_of_compare he).symm
    have hv := congrArg (fun m : WriteMap => m[k2]?) h
    simp only [Std.ExtTreeMap.getElem?_insert_self, hcross] at hv
    rw [Std.ExtTreeMap.getElem?_insert, if_neg hc, Std.ExtTreeMap.getElem?_insert_self] at hv
    exact absurd (hval (some.inj hv).symm) hne

variable {acc : AccountRecord}

theorem accountId_valid {data : Bytes} (h : AccountRecord.unmarshal data = some acc) :
    coerceUtf8 acc.accountId = acc.accountId := by
  obtain ⟨j, hj, hdec⟩ := bind_eq_some_iff.mp h
  obtain ⟨r, hr, -⟩ := Json.parse_eq_some hj
  let Q := fun acc : AccountRecord => coerceUtf8 acc.accountId = acc.accountId
  have hzero : Q zero := rfl
  refine Json.decodeStruct_keeps (Q := Q) ?_ hzero (Json.parseValue_strings hr) hdec
  intro f hf cur j cur' hcur hstr hf'
  simp only [fields, mem_cons, not_mem_nil, or_false] at hf
  rcases hf with rfl | rfl | rfl | rfl
  · obtain ⟨s, hs, rfl⟩ := map_eq_some_iff.mp hf'
    rcases Json.decodeString_cases hs with rfl | rfl
    · exact hcur
    · exact hstr.1
  all_goals
    obtain ⟨_, -, rfl⟩ := map_eq_some_iff.mp hf'
    exact hcur

theorem marshal_accountId {acc' : AccountRecord} (h : acc.marshal = acc'.marshal) :
    coerceUtf8 acc.accountId = coerceUtf8 acc'.accountId := by
  have hread := congrArg unmarshal h
  rw [unmarshal_marshal, unmarshal_marshal] at hread
  exact congrArg accountId (some.inj hread)

namespace Smallbank

variable {id : GoString} {acc : AccountRecord} {field : String} {raw : GoString} {n : Int64}
  {src dst : GoString} {rest : List GoString} {r : Response}

theorem getAccount_eq_ok {db : View} :
    getAccount db id = .ok acc ↔ trimSpace id ≠ [] ∧ HasAccount db id acc := by
  unfold getAccount
  by_cases hid : trimSpace id = []
  · simp [hid]
  · rw [if_neg hid]
    show _ ↔ trimSpace id ≠ [] ∧ ∃ data, db (accountKey (trimSpace id)) = some data ∧ _
    cases db (accountKey (trimSpace id)) with
    | none => simp
    | some data =>
      cases hdata : unmarshal data with
      | none => simp [hdata]
      | some acc' => simp [hdata, hid]

theorem parseSigned_eq_ok : parseSignedAmount field raw = .ok n ↔ IsAmount raw n := by
  unfold parseSignedAmount IsAmount
  cases parseInt (trimSpace raw) with
  | error e | ok m => simp

theorem parseNonNegative_eq_ok :
    parseNonNegativeAmount field raw = .ok n ↔ IsAmount raw n ∧ 0 ≤ n := by
  simp only [parseNonNegativeAmount, bind_ok, parseSigned_eq_ok, ite_error_eq_ok,
    Int64.not_lt]
  constructor
  · rintro ⟨m, hm, hpos, h⟩
    cases h
    exact ⟨hm, hpos⟩
  · rintro ⟨hn, hpos⟩
    exact ⟨n, hn, hpos, rfl⟩

theorem sbKey_eq_accountKey {id' : GoString} : sbKey id = accountKey id' ↔ trimSpace id = id' :=
  append_right_inj (str "account:")

theorem isAccountKey_accountKey (id : GoString) : isAccountKey (accountKey id) = true :=
  isPrefixOf_iff_prefix.mpr (prefix_append _ _)

/-- Only the accounts are kept of what a successful operation puts. -/
theorem writeMap_success (txId requestId : GoString) (operation : String) (accounts : List GoString)
    (recs : List AccountRecord) :
    (successWithOptionalReceipt txId requestId operation accounts (recs.map putAccount)).writeMap
        isAccountKey =
      recs.foldl (fun m acc => m.insert (accountKey acc.accountId) acc.marshal) ∅ := by
  have hrecs : (recs.map putAccount).filter (fun w => isAccountKey w.1) = recs.map putAccount := by
    refine filter_eq_self.mpr fun w hw => ?_
    obtain ⟨acc, -, rfl⟩ := mem_map.mp hw
    exact isAccountKey_accountKey acc.accountId
  have hreceipt : ∀ r, [putReceipt r].filter (fun w => isAccountKey w.1) = [] := fun r =>
    filter_eq_nil_iff.mpr fun w hw => by
      obtain rfl := mem_singleton.mp hw
      exact Bool.false_ne_true
  rw [Response.writeMap, successWithOptionalReceipt, filter_append, hrecs]
  split
  · rw [filter_nil, append_nil, foldl_map]
    rfl
  · rw [hreceipt, append_nil, foldl_map]
    rfl

/-- The replayed operation has no surplus arguments, an account whose record carries its name, and
an amount of the right sign. -/
def OneFaithful (sign : Int64 → Prop) (f : AccountRecord → Int64 → Except GoError AccountRecord)
    (db : View) (args : List GoString) : Prop :=
  ∀ id arg rest n acc acc', args = id :: arg :: rest → IsAmount arg n → HasAccount db id acc →
    f acc n = .ok acc' →
    rest.length ≤ 1 ∧ trimSpace id ≠ [] ∧ sign n ∧ acc.accountId = trimSpace id

section OneAccount

variable {name : String} {parse : String → GoString → Except GoError Int64} {sign : Int64 → Prop}
  {f : AccountRecord → Int64 → Except GoError AccountRecord} {db : View} {txId : GoString}
  {args : List GoString}

theorem oneAccount_ok (hparse : ∀ raw n, parse "amount" raw = .ok n ↔ IsAmount raw n ∧ sign n)
    {id arg : GoString} :
    oneAccount name parse f db txId (id :: arg :: rest) = .ok r ↔
      ∃ n acc acc', (IsAmount arg n ∧ HasAccount db id acc ∧ f acc n = .ok acc') ∧
        (rest.length ≤ 1 ∧ trimSpace id ≠ [] ∧ sign n) ∧
        successWithOptionalReceipt txId (optionalRequestId (id :: arg :: rest) 2) name
          [acc'.accountId] [putAccount acc'] = r := by
  simp only [oneAccount, ite_error_eq_ok, not_lt, bind_ok, getAccount_eq_ok, hparse]
  constructor
  · rintro ⟨hlen, acc, ⟨hid, hacc⟩, n, ⟨hn, hsign⟩, acc', hok, h⟩
    exact ⟨n, acc, acc', ⟨hn, hacc, hok⟩, ⟨hlen, hid, hsign⟩, ok.inj h⟩
  · rintro ⟨n, acc, acc', ⟨hn, hacc, hok⟩, ⟨hlen, hid, hsign⟩, rfl⟩
    exact ⟨hlen, acc, ⟨hid, hacc⟩, n, ⟨hn, hsign⟩, acc', hok, rfl⟩

theorem oneAccount_agrees (name' : String)
    (hparse : ∀ raw n, parse "amount" raw = .ok n ↔ IsAmount raw n ∧ sign n)
    (hf : ∀ acc n acc', f acc n = .ok acc' → acc'.accountId = acc.accountId) :
    Agrees isAccountKey (oneAccount name parse f db txId args) (sbReplayOne name' f db args) ↔
      OneFaithful sign f db args := by
  match args with
  | [] | [_] => exact iff_of_true trivial fun _ _ _ _ _ _ h => nomatch h
  | id :: arg :: rest =>
    -- the amount, and the record before and after
    let P := fun x : Int64 × AccountRecord × AccountRecord =>
      IsAmount arg x.1 ∧ HasAccount db id x.2.1 ∧ f x.2.1 x.1 = .ok x.2.2
    have hreplay : ∀ w, sbReplayOne name' f db (id :: arg :: rest) = .ok w ↔
        ∃ x, P x ∧ (∅ : WriteMap).insert (sbKey id) x.2.2.marshal = w := fun w => by
      simp only [sbReplayOne_ok, parseAmount_eq_ok, sbGetAccount_eq_ok, P, Prod.exists, and_assoc]
    have hinvoke : ∀ r, oneAccount name parse f db txId (id :: arg :: rest) = .ok r ↔
        ∃ x, P x ∧ (rest.length ≤ 1 ∧ trimSpace id ≠ [] ∧ sign x.1) ∧
          successWithOptionalReceipt txId (optionalRequestId (id :: arg :: rest) 2) name
            [x.2.2.accountId] [putAccount x.2.2] = r := fun r => by
      simp only [oneAccount_ok hparse, P, Prod.exists]
    have hunique : ∀ x y, P x → P y → x = y := by
      rintro ⟨n, acc, acc'⟩ ⟨m, a, a'⟩ ⟨hn, hacc, hok⟩ ⟨hm, ha, hok'⟩
      obtain rfl : n = m := ok.inj (hn.symm.trans hm)
      obtain rfl : acc = a := hacc.unique ha
      exact congrArg (n, acc, ·) (ok.inj (hok.symm.trans hok'))
    rw [agrees_iff_of_unique hreplay hinvoke hunique]
    constructor
    · rintro h id2 arg2 rest2 n acc acc' hargs hn hacc hok
      obtain ⟨rfl, rfl, rfl⟩ : id = id2 ∧ arg = arg2 ∧ rest = rest2 := by simpa using hargs
      obtain ⟨⟨hlen, hid, hsign⟩, hws⟩ := h (n, acc, acc') ⟨hn, hacc, hok⟩
      have hkey := (insert_empty_inj.mp (hws.trans (writeMap_success txId _ name _ [acc']))).1
      refine ⟨hlen, hid, hsign, ?_⟩
      rw [← hf acc n acc' hok]
      exact (sbKey_eq_accountKey.mp hkey).symm
    · rintro h ⟨n, acc, acc'⟩ ⟨hn, hacc, hok⟩
      obtain ⟨hlen, hid, hsign, hname⟩ := h id arg rest n acc acc' rfl hn hacc hok
      refine ⟨⟨hlen, hid, hsign⟩, Eq.trans ?_ (writeMap_success txId _ name _ [acc']).symm⟩
      refine insert_empty_inj.mpr ⟨sbKey_eq_accountKey.mpr ?_, rfl⟩
      rw [hf acc n acc' hok, hname]

end OneAccount

/-! ## Operations on two accounts -/

/-- Both accounts are named in the record under their key. -/
theorem two_puts_iff {db : View} {acc' new new' : AccountRecord} (hacc : HasAccount db src acc)
    (hacc' : HasAccount db dst acc') (hnew : new.accountId = acc.accountId)
    (hnew' : new'.accountId = acc'.accountId) :
    ((∅ : WriteMap).insert (sbKey src) new.marshal).insert (sbKey dst) new'.marshal =
        ((∅ : WriteMap).insert (accountKey new.accountId) new.marshal).insert
          (accountKey new'.accountId) new'.marshal ↔
      acc.accountId = trimSpace src ∧ acc'.accountId = trimSpace dst := by
  constructor
  · intro h
    have hsame : sbKey src = sbKey dst → accountKey new.accountId = accountKey new'.accountId := by
      intro hk
      have huniq : acc = acc' := by
        obtain ⟨data, hd, hu⟩ := hacc'
        exact hacc.unique ⟨data, (congrArg db hk).trans hd, hu⟩
      rw [hnew, hnew', huniq]
    have hval : new.marshal = new'.marshal → accountKey new.accountId = accountKey new'.accountId := by
      intro hm
      obtain ⟨data, -, hu⟩ := hacc
      obtain ⟨data', -, hu'⟩ := hacc'
      have hid := marshal_accountId hm
      rw [hnew, hnew', accountId_valid hu, accountId_valid hu'] at hid
      rw [hnew, hnew', hid]
    obtain ⟨h1, h2⟩ := insert_pair_inj hsame hval h
    rw [← hnew, ← hnew']
    exact ⟨(sbKey_eq_accountKey.mp h1).symm, (sbKey_eq_accountKey.mp h2).symm⟩
  · rintro ⟨h1, h2⟩
    rw [sbKey_eq_accountKey.mpr (h1.symm.trans hnew.symm),
      sbKey_eq_accountKey.mpr (h2.symm.trans hnew'.symm)]

/-- The replayed operation passes the checks `extra`, and each account is named in its record. -/
def TwoFaithful (extra : Prop)
    (f : AccountRecord → AccountRecord → Except GoError (AccountRecord × AccountRecord)) (db : View)
    (src dst : GoString) : Prop :=
  ∀ acc acc' p, HasAccount db src acc → HasAccount db dst acc' → f acc acc' = .ok p →
    extra ∧ trimSpace src ≠ [] ∧ trimSpace dst ≠ [] ∧ acc.accountId = trimSpace src ∧
      acc'.accountId = trimSpace dst

/-- The contract's side of an operation on two accounts. -/
structure TwoAccounts (extra : Prop)
    (f : AccountRecord → AccountRecord → Except GoError (AccountRecord × AccountRecord)) (db : View)
    (src dst : GoString) (o : Outcome) where
  response : AccountRecord × AccountRecord → Response
  writeMap_response : ∀ p, (response p).writeMap isAccountKey =
    ((∅ : WriteMap).insert (accountKey p.1.accountId) p.1.marshal).insert
      (accountKey p.2.accountId) p.2.marshal
  ok_iff : ∀ r, o = .ok r ↔ ∃ acc acc' p, (extra ∧ trimSpace src ≠ [] ∧ trimSpace dst ≠ []) ∧
    HasAccount db src acc ∧ HasAccount db dst acc' ∧ f acc acc' = .ok p ∧ response p = r

theorem TwoAccounts.agrees {extra : Prop}
    {f : AccountRecord → AccountRecord → Except GoError (AccountRecord × AccountRecord)} {db : View}
    {o : Outcome} (c : TwoAccounts extra f db src dst o) (hf : ∀ acc acc' p, f acc acc' = .ok p →
      p.1.accountId = acc.accountId ∧ p.2.accountId = acc'.accountId) :
    Agrees isAccountKey o (sbReplayTwo f db src dst) ↔ TwoFaithful extra f db src dst := by
  let P := fun x : AccountRecord × AccountRecord × AccountRecord × AccountRecord =>
    HasAccount db src x.1 ∧ HasAccount db dst x.2.1 ∧ f x.1 x.2.1 = .ok x.2.2
  have hreplay : ∀ w, sbReplayTwo f db src dst = .ok w ↔ ∃ x, P x ∧
      ((∅ : WriteMap).insert (sbKey src) x.2.2.1.marshal).insert (sbKey dst) x.2.2.2.marshal = w :=
    fun w => by simp only [sbReplayTwo_ok, sbGetAccount_eq_ok, P, Prod.exists, and_assoc]
  have hinvoke : ∀ r, o = .ok r ↔
      ∃ x, P x ∧ (extra ∧ trimSpace src ≠ [] ∧ trimSpace dst ≠ []) ∧ c.response x.2.2 = r := by
    intro r
    rw [c.ok_iff r]
    constructor
    · rintro ⟨acc, acc', p, hchecks, hacc, hacc', hp, h⟩
      exact ⟨(acc, acc', p), ⟨hacc, hacc', hp⟩, hchecks, h⟩
    · rintro ⟨⟨acc, acc', p⟩, ⟨hacc, hacc', hp⟩, hchecks, h⟩
      exact ⟨acc, acc', p, hchecks, hacc, hacc', hp, h⟩
  have hunique : ∀ x y, P x → P y → x = y := by
    rintro ⟨acc, acc', p⟩ ⟨a, a', q⟩ ⟨hacc, hacc', hp⟩ ⟨ha, ha', hq⟩
    obtain rfl : acc = a := hacc.unique ha
    obtain rfl : acc' = a' := hacc'.unique ha'
    exact congrArg (acc, acc', ·) (ok.inj (hp.symm.trans hq))
  rw [agrees_iff_of_unique hreplay hinvoke hunique]
  constructor
  · rintro h acc acc' p hacc hacc' hp
    obtain ⟨⟨hextra, hsrc, hdst⟩, hws⟩ := h (acc, acc', p) ⟨hacc, hacc', hp⟩
    obtain ⟨hnew, hnew'⟩ := hf acc acc' p hp
    exact ⟨hextra, hsrc, hdst,
      (two_puts_iff hacc hacc' hnew hnew').mp (hws.trans (c.writeMap_response p))⟩
  · rintro h ⟨acc, acc', p⟩ ⟨hacc, hacc', hp⟩
    obtain ⟨hextra, hsrc, hdst, hnames⟩ := h acc acc' p hacc hacc' hp
    obtain ⟨hnew, hnew'⟩ := hf acc acc' p hp
    exact ⟨⟨hextra, hsrc, hdst⟩,
      ((two_puts_iff hacc hacc' hnew hnew').mpr hnames).trans (c.writeMap_response p).symm⟩

def AmalgamateFaithful (db : View) (args : List GoString) : Prop :=
  ∀ src dst rest, args = src :: dst :: rest →
    TwoFaithful (rest.length ≤ 1) Bench.amalgamate db src dst

theorem amalgamate_agrees {db : View} {txId : GoString} {args : List GoString} :
    Agrees isAccountKey (amalgamate db txId args) (sbReplayAmalgamate db args) ↔
      AmalgamateFaithful db args := by
  match args with
  | [] | [_] => exact iff_of_true trivial fun src dst rest h => nomatch h
  | src :: dst :: rest =>
    let c : TwoAccounts (rest.length ≤ 1) Bench.amalgamate db src dst
        (amalgamate db txId (src :: dst :: rest)) := by
      refine ⟨fun p => successWithOptionalReceipt txId (optionalRequestId (src :: dst :: rest) 2)
        "Amalgamate" [p.1.accountId, p.2.accountId] [putAccount p.1, putAccount p.2],
        fun p => writeMap_success txId _ _ _ [p.1, p.2], fun r => ?_⟩
      simp only [amalgamate, ite_error_eq_ok, not_lt, bind_ok, getAccount_eq_ok]
      constructor
      · rintro ⟨hlen, acc, ⟨hs, hacc⟩, acc', ⟨hd, hacc'⟩, p, hp, h⟩
        exact ⟨acc, acc', p, ⟨hlen, hs, hd⟩, hacc, hacc', hp, ok.inj h⟩
      · rintro ⟨acc, acc', p, ⟨hlen, hs, hd⟩, hacc, hacc', hp, rfl⟩
        exact ⟨hlen, acc, ⟨hs, hacc⟩, acc', ⟨hd, hacc'⟩, p, hp, rfl⟩
    have hagrees := c.agrees fun acc acc' p hp => by
      cases hp
      exact ⟨rfl, rfl⟩
    exact hagrees.trans (forall_eq_cons_cons (Q := fun src dst rest =>
      TwoFaithful (rest.length ≤ 1) Bench.amalgamate db src dst)).symm

def PaymentFaithful (db : View) (args : List GoString) : Prop :=
  ∀ src dst arg rest n, args = src :: dst :: arg :: rest → IsAmount arg n →
    TwoFaithful (rest.length ≤ 1 ∧ 0 ≤ n) (Bench.sendPayment n) db src dst

theorem sendPayment_agrees {db : View} {txId : GoString} {args : List GoString} :
    Agrees isAccountKey (sendPayment db txId args) (sbReplaySendPayment db args) ↔
      PaymentFaithful db args := by
  match args with
  | [] | [_] | [_, _] => exact iff_of_true trivial fun src dst arg rest n h => nomatch h
  | src :: dst :: arg :: rest =>
    cases hn : parseAmount arg with
    | error e =>
      have hnot : ∀ n, ¬ IsAmount arg n := fun n h => by
        rw [parseAmount_eq_ok.mpr h] at hn
        cases hn
      have hreplay : sbReplaySendPayment db (src :: dst :: arg :: rest) = .error e := by
        simp only [sbReplaySendPayment, hn]
        rfl
      rw [hreplay, agrees_error_iff]
      refine iff_of_true (fun r hok => ?_) ?_
      · simp only [sendPayment] at hok
        split at hok
        · cases hok
        · obtain ⟨acc, -, hok⟩ := bind_ok.mp hok
          obtain ⟨acc', -, hok⟩ := bind_ok.mp hok
          obtain ⟨n, hn', -⟩ := bind_ok.mp hok
          exact hnot n (parseNonNegative_eq_ok.mp hn').1
      · rintro _ _ _ _ n ⟨⟩ hn'
        exact absurd hn' (hnot n)
    | ok n =>
      have hn' := parseAmount_eq_ok.mp hn
      let c : TwoAccounts (rest.length ≤ 1 ∧ 0 ≤ n) (Bench.sendPayment n) db src dst
          (sendPayment db txId (src :: dst :: arg :: rest)) := by
        refine ⟨fun p => successWithOptionalReceipt txId
          (optionalRequestId (src :: dst :: arg :: rest) 3)
          "SendPayment" [p.1.accountId, p.2.accountId] [putAccount p.1, putAccount p.2],
          fun p => writeMap_success txId _ _ _ [p.1, p.2], fun r => ?_⟩
        simp only [sendPayment, ite_error_eq_ok, not_lt, bind_ok, getAccount_eq_ok,
          parseNonNegative_eq_ok]
        constructor
        · rintro ⟨hlen, acc, ⟨hs, hacc⟩, acc', ⟨hd, hacc'⟩, m, ⟨hm, hpos⟩, p, hp, h⟩
          obtain rfl : n = m := ok.inj (hn'.symm.trans hm)
          exact ⟨acc, acc', p, ⟨⟨hlen, hpos⟩, hs, hd⟩, hacc, hacc', hp, ok.inj h⟩
        · rintro ⟨acc, acc', p, ⟨⟨hlen, hpos⟩, hs, hd⟩, hacc, hacc', hp, rfl⟩
          exact ⟨hlen, acc, ⟨hs, hacc⟩, acc', ⟨hd, hacc'⟩, n, ⟨hn', hpos⟩, p, hp, rfl⟩
      have hreplay : sbReplaySendPayment db (src :: dst :: arg :: rest) =
          sbReplayTwo (Bench.sendPayment n) db src dst := by
        simp only [sbReplaySendPayment, hn]
        rfl
      have hagrees := c.agrees fun acc acc' p hp => by
        unfold Bench.sendPayment at hp
        split at hp
        · cases hp
        · cases hp
          exact ⟨rfl, rfl⟩
      rw [hreplay]
      refine hagrees.trans ?_
      constructor
      · rintro h _ _ _ _ m ⟨⟩ hm
        obtain rfl : n = m := ok.inj (hn'.symm.trans hm)
        exact h
      · intro h
        exact h src dst arg rest n rfl hn'

/-- The new record has nothing to trim and no negative amount, and there is no such account yet. -/
def CreateFaithful (db : View) (args : List GoString) : Prop :=
  ∀ id name arg arg' rest n n', args = id :: name :: arg :: arg' :: rest → IsAmount arg n →
    IsAmount arg' n' → rest.length ≤ 1 ∧ (0 ≤ n ∧ 0 ≤ n') ∧ (id ≠ [] ∧ name ≠ []) ∧
      (trimSpace id = id ∧ trimSpace name = name) ∧ db (accountKey id) = none

theorem createAccount_ok {db : View} {txId name arg arg' : GoString} :
    createAccount db txId (id :: name :: arg :: arg' :: rest) = .ok r ↔
      ∃ n n', (IsAmount arg n ∧ IsAmount arg' n') ∧ (rest.length ≤ 1 ∧ (0 ≤ n ∧ 0 ≤ n') ∧
        (trimSpace id ≠ [] ∧ trimSpace name ≠ []) ∧ db (accountKey (trimSpace id)) = none) ∧
        successWithOptionalReceipt txId
          (optionalRequestId (id :: name :: arg :: arg' :: rest) 4) "CreateAccount" [trimSpace id]
          [putAccount ⟨trimSpace id, trimSpace name, n, n'⟩] = r := by
  simp only [createAccount, ite_error_eq_ok, not_lt, bind_ok, parseNonNegative_eq_ok,
    not_isSome_iff_eq_none]
  constructor
  · rintro ⟨hlen, n, ⟨hn, hpos⟩, n', ⟨hn', hpos'⟩, hid, hname, hdb, h⟩
    exact ⟨n, n', ⟨hn, hn'⟩, ⟨hlen, ⟨hpos, hpos'⟩, ⟨hid, hname⟩, hdb⟩, ok.inj h⟩
  · rintro ⟨n, n', ⟨hn, hn'⟩, ⟨hlen, ⟨hpos, hpos'⟩, ⟨hid, hname⟩, hdb⟩, rfl⟩
    exact ⟨hlen, n, ⟨hn, hpos⟩, n', ⟨hn', hpos'⟩, hid, hname, hdb, rfl⟩

theorem marshal_trim_iff {name : GoString} (n n' : Int64) :
    AccountRecord.marshal ⟨id, name, n, n'⟩ =
        AccountRecord.marshal ⟨trimSpace id, trimSpace name, n, n'⟩ ↔
      trimSpace id = id ∧ trimSpace name = name := by
  constructor
  · intro h
    have hread := congrArg unmarshal h
    rw [unmarshal_marshal, unmarshal_marshal, some.injEq] at hread
    have hid := congrArg accountId hread
    have hname := congrArg AccountRecord.name hread
    exact ⟨trimSpace_eq_of_coerceUtf8 hid.symm, trimSpace_eq_of_coerceUtf8 hname.symm⟩
  · rintro ⟨hid, hname⟩
    rw [hid, hname]

theorem createAccount_agrees {db : View} {txId : GoString} {args : List GoString} :
    Agrees isAccountKey (createAccount db txId args) (sbReplayCreateAccount args) ↔
      CreateFaithful db args := by
  match args with
  | [] | [_] | [_, _] | [_, _, _] => exact iff_of_true trivial fun _ _ _ _ _ _ _ h => nomatch h
  | id :: name :: arg :: arg' :: rest =>
    let P := fun x : Int64 × Int64 => IsAmount arg x.1 ∧ IsAmount arg' x.2
    have hreplay : ∀ w, sbReplayCreateAccount (id :: name :: arg :: arg' :: rest) = .ok w ↔
        ∃ x, P x ∧ (∅ : WriteMap).insert (sbKey id)
          (marshal ⟨id, name, x.1, x.2⟩) = w := fun w => by
      simp only [sbReplayCreateAccount, bind_ok, parseAmount_eq_ok, P, Prod.exists,
        and_assoc, exists_and_left, ok.injEq]
    have hinvoke : ∀ r, createAccount db txId (id :: name :: arg :: arg' :: rest) = .ok r ↔
        ∃ x, P x ∧ (rest.length ≤ 1 ∧ (0 ≤ x.1 ∧ 0 ≤ x.2) ∧
          (trimSpace id ≠ [] ∧ trimSpace name ≠ []) ∧ db (accountKey (trimSpace id)) = none) ∧
          successWithOptionalReceipt txId
            (optionalRequestId (id :: name :: arg :: arg' :: rest) 4) "CreateAccount" [trimSpace id]
            [putAccount ⟨trimSpace id, trimSpace name, x.1, x.2⟩] = r := fun r => by
      simp only [createAccount_ok, P, Prod.exists]
    have hunique : ∀ x y, P x → P y → x = y := fun x y hx hy =>
      Prod.ext (ok.inj (hx.1.symm.trans hy.1)) (ok.inj (hx.2.symm.trans hy.2))
    have hmap : ∀ n n' requestId, (∅ : WriteMap).insert (sbKey id) (marshal ⟨id, name, n, n'⟩) =
          (successWithOptionalReceipt txId requestId "CreateAccount" [trimSpace id]
            [putAccount ⟨trimSpace id, trimSpace name, n, n'⟩]).writeMap isAccountKey ↔
        trimSpace id = id ∧ trimSpace name = name := by
      intro n n' requestId
      have hw := writeMap_success txId requestId "CreateAccount" [trimSpace id]
        [⟨trimSpace id, trimSpace name, n, n'⟩]
      rw [map_singleton] at hw
      rw [hw, ← marshal_trim_iff n n']
      exact insert_empty_inj.trans (and_iff_right rfl)
    rw [agrees_iff_of_unique hreplay hinvoke hunique]
    constructor
    · rintro h _ _ _ _ _ n n' ⟨⟩ hn hn'
      obtain ⟨⟨hlen, hpos, ⟨hid, hname⟩, hdb⟩, hws⟩ := h (n, n') ⟨hn, hn'⟩
      obtain ⟨htrim, htrim'⟩ := (hmap n n' _).mp hws
      rw [htrim] at hid hdb
      rw [htrim'] at hname
      exact ⟨hlen, hpos, ⟨hid, hname⟩, ⟨htrim, htrim'⟩, hdb⟩
    · rintro h ⟨n, n'⟩ ⟨hn, hn'⟩
      obtain ⟨hlen, hpos, ⟨hid, hname⟩, ⟨htrim, htrim'⟩, hdb⟩ :=
        h id name arg arg' rest n n' rfl hn hn'
      exact ⟨⟨hlen, hpos, ⟨htrim.symm ▸ hid, htrim'.symm ▸ hname⟩, htrim.symm ▸ hdb⟩,
        (hmap n n' _).mpr ⟨htrim, htrim'⟩⟩

def BalanceFaithful (db : View) (args : List GoString) : Prop :=
  ∃ id acc, args = [id] ∧ trimSpace id ≠ [] ∧ HasAccount db id acc

theorem balance_agrees {db : View} {args : List GoString} :
    Agrees isAccountKey (balance db args) (.ok ∅) ↔ BalanceFaithful db args := by
  rw [agrees_ok_iff]
  constructor
  · rintro ⟨r, hcc, -⟩
    match args with
    | [] => cases hcc
    | [id] =>
      obtain ⟨acc, hacc, -⟩ := bind_ok.mp hcc
      obtain ⟨hid, hacc⟩ := getAccount_eq_ok.mp hacc
      exact ⟨id, acc, rfl, hid, hacc⟩
    | _ :: _ :: _ => cases hcc
  · rintro ⟨id, acc, rfl, hid, hacc⟩
    exact ⟨_, bind_ok.mpr ⟨acc, getAccount_eq_ok.mpr ⟨hid, hacc⟩, rfl⟩, rfl⟩

/-- For each function of the contract, the inputs on which the replay may stand for it. -/
def Faithful (db : View) (function : GoString) (args : List GoString) : Prop :=
  if function = str "Ping" then False
  else if function = str "GetReceipt" then
    ReceiptFails trimSpace (fun b => (ReceiptRecord.unmarshal b).map ReceiptRecord.toJson) db args
  else if function = str "BatchGetReceipts" then ∀ raw, args = [raw] → requestIds raw = none
  else if function = str "CreateAccount" then CreateFaithful db args
  else if function = str "Balance" then BalanceFaithful db args
  else if function = str "DepositChecking" then
    OneFaithful (fun n => 0 ≤ n) Bench.depositChecking db args
  else if function = str "TransactSavings" then
    OneFaithful (fun _ => True) Bench.transactSavings db args
  else if function = str "Amalgamate" then AmalgamateFaithful db args
  else if function = str "WriteCheck" then OneFaithful (fun n => 0 ≤ n) Bench.writeCheck db args
  else if function = str "SendPayment" then PaymentFaithful db args
  else True

theorem smallBank_unsupported (db : View) (function : GoString) (args : List GoString)
    (h : ∀ name ∈ ["DepositChecking", "TransactSavings", "WriteCheck", "Amalgamate", "SendPayment",
      "CreateAccount", "Balance"], function ≠ str name) :
    ∃ e, replaySmallBank db function args = .error e := by
  simp only [mem_cons, not_mem_nil, or_false, forall_eq_or_imp, forall_eq] at h
  obtain ⟨h1, h2, h3, h4, h5, h6, h7⟩ := h
  refine ⟨.text (str "unsupported smallbank function: " ++ function), ?_⟩
  rw [replaySmallBank, if_neg h1, if_neg h2, if_neg h3, if_neg h4, if_neg h5, if_neg h6, if_neg h7]

/-- The replay agrees with the contract exactly on these inputs, for every state, function
name and argument list. -/
theorem replaySmallBank_agrees_iff (db : View) (txId function : GoString) (args : List GoString) :
    Agrees isAccountKey (invoke db txId function args) (replaySmallBank db function args) ↔
      Faithful db function args := by
  refine agrees_ite (fun h => ?_) fun h1 => ?_
  · obtain ⟨e, he⟩ := smallBank_unsupported db function args (by simp [h, str_inj])
    rw [he]
    exact iff_of_false id id
  refine agrees_ite (fun h => ?_) fun h2 => ?_
  · obtain ⟨e, he⟩ := smallBank_unsupported db function args (by simp [h, str_inj])
    rw [he]
    exact getReceiptWith_agrees
  refine agrees_ite (fun h => ?_) fun h3 => ?_
  · obtain ⟨e, he⟩ := smallBank_unsupported db function args (by simp [h, str_inj])
    rw [he]
    exact batchReceipts_agrees
  refine agrees_ite (fun h => ?_) fun h4 => ?_
  · rw [h, smallBank_createAccount]
    exact createAccount_agrees
  refine agrees_ite (fun h => ?_) fun h5 => ?_
  · rw [h, smallBank_balance]
    exact balance_agrees
  refine agrees_ite (fun h => ?_) fun h6 => ?_
  · rw [h, smallBank_depositChecking]
    refine oneAccount_agrees _ (fun raw n => parseNonNegative_eq_ok) fun acc n acc' h => ?_
    exact ok.inj h ▸ rfl
  refine agrees_ite (fun h => ?_) fun h7 => ?_
  · rw [h, smallBank_transactSavings]
    refine oneAccount_agrees _ (fun raw n => ?_) fun acc n acc' h => ?_
    · exact parseSigned_eq_ok.trans (and_iff_left trivial).symm
    · unfold Bench.transactSavings at h
      split at h
      · cases h
      · exact ok.inj h ▸ rfl
  refine agrees_ite (fun h => ?_) fun h8 => ?_
  · rw [h, smallBank_amalgamate]
    exact amalgamate_agrees
  refine agrees_ite (fun h => ?_) fun h9 => ?_
  · rw [h, smallBank_writeCheck]
    refine oneAccount_agrees _ (fun raw n => parseNonNegative_eq_ok) fun acc n acc' h => ?_
    unfold Bench.writeCheck at h
    split at h
    · exact ok.inj h ▸ rfl
    · exact ok.inj h ▸ rfl
  refine agrees_ite (fun h => ?_) fun h10 => ?_
  · rw [h, smallBank_sendPayment]
    exact sendPayment_agrees
  · obtain ⟨e, he⟩ := smallBank_unsupported db function args
      (by simp [h4, h5, h6, h7, h8, h9, h10])
    rw [he]
    exact iff_of_true trivial trivial

/-- A negative deposit, which the contract refuses: the replay takes money out. -/
theorem negative_deposit_replayed :
    let acc : AccountRecord := ⟨str "a", str "name", 10, 0⟩
    let db : View := fun k => if k = str "account:a" then some acc.marshal else none
    let args := [str "a", str "-7"]
    (invoke db (str "t1") (str "DepositChecking") args).isOk = false ∧
      (replaySmallBank db (str "DepositChecking") args).map (·.toList) =
        .ok [(str "account:a", { acc with checking := 3 }.marshal)] := by
  decide +kernel

end Smallbank

end FabricOev.Chaincode
