import FabricOev.Ledger.RwSet
import FabricOev.Protos.SignedTx

/-!
# Read-write sets on the wire

What a peer decodes (`TxRwSet.FromProtoBytes`) from the read-write set that a simulator
encoded (`TxRwSet.ToProtoBytes`). Everything comes back but the difference between an empty
value and none: proto3 leaves an empty field out, and the reader sees a nil one.
-/

namespace FabricOev.Ledger

open Go Go.Wire Protos List Nat

def KvWrite.received (w : KvWrite) : KvWrite := { w with value := nonNil (w.value.getD []) }

def NsRwSet.received (s : NsRwSet) : NsRwSet := { s with writes := s.writes.map KvWrite.received }

def TxRwSet.received (rw : TxRwSet) : TxRwSet := rw.map NsRwSet.received

/-- The numbers of a summary are `uint32` in the source. -/
def ReadsInfo.Fits : ReadsInfo → Prop
  | .merkleHashes m => m.maxDegree < 2 ^ 32 ∧ m.maxLevel < 2 ^ 32
  | _ => True

instance (info : ReadsInfo) : Decidable info.Fits :=
  match info with
  | .absent => isTrue trivial
  | .rawReads _ => isTrue trivial
  | .merkleHashes m => inferInstanceAs (Decidable (m.maxDegree < 2 ^ 32 ∧ m.maxLevel < 2 ^ 32))

/-- A read-write set that memory can hold on the wire, with numbers of the source's width. -/
structure TxRwSet.Encodable (rw : TxRwSet) : Prop where
  length : rw.toProtoBytes.length < 2 ^ 64
  fits : ∀ s ∈ rw, ∀ q ∈ s.rangeQueries, q.readsInfo.Fits

theorem mapM_map_eq_some {α β γ : Type} {l : List α} {g : α → β} {f : β → Option γ} {k : α → γ}
    (h : ∀ a ∈ l, f (g a) = some (k a)) : (l.map g).mapM f = some (l.map k) := by
  induction l with
  | nil => rfl
  | cons a l ih =>
    rw [map_cons, mapM_cons, h a (by simp), ih fun b hb => h b (by simp [hb])]
    rfl

def KvRead.toFields (r : KvRead) : List Field :=
  bytesField 1 r.key ++ (r.version.map fun v => messageField 2 v.marshal).getD []

def KvWrite.toFields (w : KvWrite) : List Field :=
  bytesField 1 w.key ++ varintField 2 w.isDelete.toNat ++ bytesField 3 (w.value.getD [])

def RangeQueryInfo.toFields (q : RangeQueryInfo) : List Field :=
  bytesField 1 q.startKey ++ bytesField 2 q.endKey ++ varintField 3 q.itrExhausted.toNat ++
    q.readsInfo.toFields

def NsRwSet.toFields (s : NsRwSet) : List Field :=
  s.reads.flatMap (fun r => messageField 1 r.marshal) ++
    s.rangeQueries.flatMap (fun q => messageField 2 q.marshal) ++
    s.writes.flatMap fun w => messageField 3 w.marshal

theorem KvRead.declared (r : KvRead) : DeclaredIn kvReadDesc r.toFields := by
  obtain ⟨key, version⟩ := r
  cases version <;> simp [toFields, kvReadDesc, lookup]

theorem KvRead.ofFields_toFields {r : KvRead} (h : (encodeFields r.toFields).length < 2 ^ 64) :
    KvRead.ofFields r.toFields = some r := by
  obtain ⟨key, version⟩ := r
  cases version with
  | none =>
    refine read_no_subMessage (by simp [toFields]) ?_
    simp [toFields, lastString, lastBytes]
  | some v =>
    refine read_subMessage (varintField 1 v.blockNum.toNat ++ varintField 2 v.txNum.toNat) h
      (by simp [toFields, Height.marshal]) (by simp [versionDesc, lookup]) ?_
    simp [toFields, lastString, lastBytes, lastVarint, heightOfFields]

variable {rs : List KvRead}

theorem kvReads_eq {num : Nat} {fs : List Field} (hb : allBytes num fs = rs.map KvRead.marshal)
    (h : (encodeFields fs).length < 2 ^ 64) :
    kvReads num fs = some rs := by
  refine read_subMessages rs KvRead.toFields h hb (fun r _ => r.declared) ?_
  have hback : (rs.map KvRead.toFields).mapM KvRead.ofFields = some (rs.map id) :=
    mapM_map_eq_some fun r hr =>
      KvRead.ofFields_toFields (lt_of_part num h (hb ▸ mem_map_of_mem hr))
  rw [hback, map_id]

theorem allVarints_hashes (num : Nat) (hs : List Bytes) :
    allVarints num (hs.flatMap (messageField 3)) = [] := by
  induction hs with
  | nil => rfl
  | cons b hs ih => rw [flatMap_cons, allVarints_append, ih, allVarints_messageField]; rfl

theorem ReadsInfo.ofField_rawReads (h : (serializeKvReads rs).length < 2 ^ 64) :
    ReadsInfo.ofField ⟨4, .bytes (serializeKvReads rs)⟩ = some (.rawReads rs) := by
  have hreads : kvReads 1 (rs.flatMap fun r => messageField 1 r.marshal) = some rs :=
    kvReads_eq (by simp) h
  refine read_fields h (by simp [lookup]) ?_
  simp [hreads]

theorem ReadsInfo.ofField_merkleHashes {m : MerkleSummary} (hm : (merkleHashes m).Fits)
    (h : m.marshal.length < 2 ^ 64) :
    ReadsInfo.ofField ⟨5, .bytes m.marshal⟩ = some (.merkleHashes m) := by
  obtain ⟨hdeg, hlev⟩ := hm
  have hd : DeclaredIn [(1, .varint), (2, .varint), (3, .bytes)] (varintField 1 m.maxDegree ++
      varintField 2 m.maxLevel ++ m.hashes.flatMap (messageField 3)) := by
    simp (disch := first | rfl | decide | omega) [declaredIn_varintField]
  refine read_fields h hd ?_
  have hdeg' : m.maxDegree % 2 ^ 32 = m.maxDegree := mod_eq_of_lt hdeg
  have hlev' : m.maxLevel % 2 ^ 32 = m.maxLevel := mod_eq_of_lt hlev
  simp [lastVarint, allVarints_hashes, -reducePow, hdeg', hlev']

abbrev rangeQueryDesc : Desc := [(1, .bytes), (2, .bytes), (3, .varint), (4, .oneof), (5, .oneof)]

theorem RangeQueryInfo.declared (q : RangeQueryInfo) : DeclaredIn rangeQueryDesc q.toFields := by
  obtain ⟨startKey, endKey, exhausted, info⟩ := q
  cases exhausted <;> cases info <;> simp [toFields, ReadsInfo.toFields, lookup]

theorem RangeQueryInfo.oneof_toFields (q : RangeQueryInfo) :
    q.toFields.filter (fun f => f.num = 4 ∨ f.num = 5) = q.readsInfo.toFields := by
  have hb : ∀ (num : Nat) (b : Bytes), num < 4 →
      (bytesField num b).filter (fun f => f.num = 4 ∨ f.num = 5) = [] := by
    intro num b hnum
    unfold bytesField
    split
    · rfl
    · simp
      omega
  have hv : (varintField 3 q.itrExhausted.toNat).filter (fun f => f.num = 4 ∨ f.num = 5) = [] := by
    cases q.itrExhausted <;> rfl
  have hinfo : q.readsInfo.toFields.filter (fun f => f.num = 4 ∨ f.num = 5) =
      q.readsInfo.toFields := by
    cases q.readsInfo <;> rfl
  simp only [toFields, filter_append, hb 1 _ (by decide), hb 2 _ (by decide), hv, hinfo, nil_append]

theorem RangeQueryInfo.ofFields_toFields {q : RangeQueryInfo} (hq : q.readsInfo.Fits)
    (h : (encodeFields q.toFields).length < 2 ^ 64) :
    RangeQueryInfo.ofFields q.toFields = some q := by
  have hinfo : q.readsInfo.toFields.mapM ReadsInfo.ofField =
      some (if q.readsInfo = .absent then [] else [q.readsInfo]) := by
    cases hr : q.readsInfo with
    | absent => rfl
    | rawReads rs =>
      have hlen : (serializeKvReads rs).length < 2 ^ 64 :=
        lt_of_part 4 h (by simp [toFields, hr, ReadsInfo.toFields, serializeKvReads])
      exact mapM_cons.trans (by rw [← serializeKvReads, ReadsInfo.ofField_rawReads hlen]; rfl)
    | merkleHashes m =>
      have hlen : m.marshal.length < 2 ^ 64 :=
        lt_of_part 5 h (by simp [toFields, hr, ReadsInfo.toFields])
      exact mapM_cons.trans (by rw [ReadsInfo.ofField_merkleHashes (hr ▸ hq) hlen]; rfl)
  rw [ofFields, oneof_toFields, hinfo]
  obtain ⟨startKey, endKey, exhausted, info⟩ := q
  cases exhausted <;> cases info <;>
    simp [toFields, ReadsInfo.toFields, lastString, lastBytes, lastVarint]

variable (w : KvWrite)

theorem KvWrite.declared : DeclaredIn [(1, .bytes), (2, .varint), (3, .bytes)] w.toFields := by
  obtain ⟨key, isDelete, value⟩ := w
  cases isDelete <;> simp [toFields, lookup]

theorem KvWrite.ofFields_toFields : KvWrite.ofFields w.toFields = w.received := by
  obtain ⟨key, isDelete, value⟩ := w
  cases isDelete <;> simp [ofFields, toFields, received, lastString, lastBytes, lastVarint]

theorem NsRwSet.unmarshal_marshal {s : NsRwSet} (hq : ∀ q ∈ s.rangeQueries, q.readsInfo.Fits)
    (h : (encodeFields s.toFields).length < 2 ^ 64) :
    NsRwSet.unmarshal s.ns s.marshal = some s.received := by
  have hqueries : allBytes 2 s.toFields = s.rangeQueries.map RangeQueryInfo.marshal := by
    simp [toFields]
  have hback : (s.rangeQueries.map RangeQueryInfo.toFields).mapM RangeQueryInfo.ofFields =
      some (s.rangeQueries.map id) :=
    mapM_map_eq_some fun q hmem => RangeQueryInfo.ofFields_toFields (hq q hmem)
      (lt_of_part 2 h (hqueries ▸ mem_map_of_mem hmem))
  rw [unmarshal, show s.marshal = encodeFields s.toFields from rfl]
  refine read_fields h (by simp [toFields, lookup]) ?_
  have hreads : kvReads 1 s.toFields = some s.reads := kvReads_eq (by simp [toFields]) h
  rw [hreads, Option.bind_eq_bind, Option.bind_some]
  refine read_subMessages s.rangeQueries RangeQueryInfo.toFields h hqueries
    (fun q _ => q.declared) ?_
  rw [hback, Option.bind_eq_bind, Option.bind_some]
  refine read_subMessages s.writes KvWrite.toFields h
    (by simp [toFields, KvWrite.marshal, KvWrite.toFields]) (fun w _ => w.declared) ?_
  simp [received, KvWrite.ofFields_toFields, Function.comp_def]

/-- What is decoded from an encoded read-write set. -/
theorem TxRwSet.fromProto_toProto {rw : TxRwSet} (h : rw.Encodable) :
    TxRwSet.fromProtoBytes rw.toProtoBytes = some rw.received := by
  obtain ⟨hlen, hfits⟩ := h
  let g : NsRwSet → List Field := fun s => bytesField 1 s.ns ++ bytesField 2 s.marshal
  refine read_fields hlen (by simp [lookup]) ?_
  refine read_subMessages rw g hlen (by simp [g]) (by simp [g, lookup]) ?_
  apply mapM_map_eq_some
  intro s hs
  have hset : (encodeFields (g s)).length < 2 ^ 64 := lt_of_part 2 hlen (by simpa using ⟨s, hs, rfl⟩)
  have hns : lastString 1 (g s) = s.ns := by simp [g, lastString, lastBytes]
  have hrw : lastString 2 (g s) = s.marshal := by simp [g, lastString, lastBytes]
  rw [hns, hrw]
  exact NsRwSet.unmarshal_marshal (hfits s hs) (lt_of_present 2 hset (by simp [g]; rfl))

end FabricOev.Ledger
