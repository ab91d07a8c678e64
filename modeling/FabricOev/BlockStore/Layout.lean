import FabricOev.BlockStore.Manager

/-!
# Where blocks stand in files

The blocks of a store as lists of blocks, one for each file, and what reading the files gives
back: from any block on, the blocks behind it with their places, up to a part of a block at the
end of the last file that is told from a whole one.
-/

namespace FabricOev.BlockStore

open Go Go.Wire Protos Ledger Lib List Result Nat

section Frames

variable {pre post bs t u : Bytes} (f : Nat)

theorem next_frame (pre post : Bytes) (hlen : bs.length < 2 ^ 56) :
    BlockfileStream.next ⟨f, pre.length⟩ (pre ++ (encodeRawBytes bs ++ post)) =
      .ok (some (bs, ⟨f, pre.length, pre.length + (encodeVarint bs.length).length⟩),
        ⟨f, pre.length + (encodeRawBytes bs).length⟩) := by
  have hpos := length_pos_iff.mpr (encodeVarint_ne_nil bs.length)
  have hshort := length_encodeVarint_le hlen
  have htake : (encodeRawBytes bs ++ post).take 8 = encodeVarint bs.length ++
      (bs ++ post).take (8 - (encodeVarint bs.length).length) := by
    rw [encodeRawBytes, append_assoc, take_append, take_of_length_le hshort]
  have hn : ((encodeRawBytes bs ++ post).take 8).length -
      ((bs ++ post).take (8 - (encodeVarint bs.length).length)).length =
        (encodeVarint bs.length).length := by
    rw [htake, length_append]
    omega
  have hne : ¬ pre.length = (pre ++ (encodeRawBytes bs ++ post)).length := by
    simp only [length_append, encodeRawBytes]
    omega
  have hle : ¬ (pre ++ (encodeRawBytes bs ++ post)).length < pre.length := by
    rw [length_append]
    omega
  rw [BlockfileStream.next]
  dsimp only
  rw [if_neg hne, if_neg hle, drop_left, htake, decode_encodeVarint (by omega)]
  dsimp only
  rw [← htake, hn, if_neg]
  · have hbytes : ((encodeRawBytes bs ++ post).drop (encodeVarint bs.length).length).take
        bs.length = bs := by
      rw [encodeRawBytes, append_assoc, drop_left, take_left]
    rw [hbytes, encodeRawBytes, length_append]
  · simp only [length_append, encodeRawBytes]
    omega

theorem next_end (pre : Bytes) :
    BlockfileStream.next ⟨f, pre.length⟩ pre = .ok (none, ⟨f, pre.length⟩) := by
  rw [BlockfileStream.next, if_pos rfl]

theorem next_torn (pre : Bytes) (ht : t ≠ []) (hu : u ≠ []) (h : t ++ u = encodeRawBytes bs)
    (hlen : bs.length < 2 ^ 56) :
    BlockfileStream.next ⟨f, pre.length⟩ (pre ++ t) = fail errUnexpectedEndOfBlockfile := by
  have hpos := length_pos_iff.mpr ht
  have hshort := length_encodeVarint_le hlen
  have hne : ¬ pre.length = (pre ++ t).length := by
    rw [length_append]
    omega
  have hle : ¬ (pre ++ t).length < pre.length := by
    rw [length_append]
    omega
  rw [BlockfileStream.next]
  dsimp only
  rw [if_neg hne, if_neg hle, drop_left]
  -- the length is cut, or it is there and the bytes are
  obtain ⟨r, hr, hu'⟩ | ⟨r, hr, hu'⟩ := append_eq_append_iff.mp h
  · by_cases hnil : r = []
    · subst hnil
      rw [append_nil] at hr
      have hu : bs.length = u.length := by rw [hu', nil_append]
      have hupos := length_pos_iff.mpr ‹u ≠ []›
      have hdec : decodeVarint (t.take 8) = some (bs.length, []) := by
        rw [take_of_length_le (by rw [← hr]; exact hshort), ← hr, ← append_nil
          (encodeVarint bs.length), decode_encodeVarint (by omega)]
      rw [hdec]
      dsimp only
      rw [if_pos]
      rw [take_of_length_le (by rw [← hr]; exact hshort)]
      simp only [length_nil, Nat.sub_zero]
      omega
    · have hlt : t.length < 8 := by
        have := congrArg length hr
        have hrpos := length_pos_iff.mpr hnil
        rw [length_append] at this
        omega
      rw [take_of_length_le (le_of_lt hlt), decodeVarint_of_append hr.symm hnil]
      rw [if_pos hlt]
  · subst hr
    have hbs := congrArg length hu'
    have hupos := length_pos_iff.mpr hu
    rw [length_append] at hbs
    have htake : (encodeVarint bs.length ++ r).take 8 = encodeVarint bs.length ++
        r.take (8 - (encodeVarint bs.length).length) := by
      rw [take_append, take_of_length_le hshort]
    rw [htake, decode_encodeVarint (by omega)]
    dsimp only
    rw [if_pos]
    simp only [length_append]
    omega

end Frames

/-- A block that can be kept: its length takes at most eight bytes, every transaction has a flag,
and no TxID makes the checkpoint's key. -/
structure StoredBlock where
  block : Block
  bytes : Bytes
  txOffsets : List TxIndexInfo
  flags : TxFlags
  serialized : serializeBlock block = .ok (bytes, txOffsets)
  short : bytes.length < 2 ^ 56
  filter : block.metadataAt MetadataIndex.transactionsFilter = .ok flags
  flagged : txOffsets.length ≤ flags.length
  apart : ∀ t ∈ txOffsets, t.txId ≠ clashingTxId

def StoredBlock.frame (b : StoredBlock) : Bytes := encodeRawBytes b.bytes

def contentOf (bs : List StoredBlock) : Bytes := bs.flatMap StoredBlock.frame

theorem contentOf_append (bs bs' : List StoredBlock) :
    contentOf (bs ++ bs') = contentOf bs ++ contentOf bs' := flatMap_append

variable (b : StoredBlock)

theorem contentOf_cons (bs : List StoredBlock) :
    contentOf (b :: bs) = b.frame ++ contentOf bs := flatMap_cons

theorem StoredBlock.length_frame_pos : 0 < b.frame.length := by
  have := length_le_rawBytes b.bytes
  rw [frame]
  omega

structure Placed where
  stored : StoredBlock
  fileNum : Nat
  offset : Nat

def placeIn (fileNum : Nat) : Nat → List StoredBlock → List Placed
  | _, [] => []
  | offset, b :: bs => ⟨b, fileNum, offset⟩ :: placeIn fileNum (offset + b.frame.length) bs

def placeFrom : Nat → List (List StoredBlock) → List Placed
  | _, [] => []
  | n, bs :: files => placeIn n 0 bs ++ placeFrom (n + 1) files

abbrev Layout := List (List StoredBlock)

def Layout.placed (l : Layout) : List Placed := placeFrom 0 l

theorem stored_placeIn (n off : Nat) (bs : List StoredBlock) :
    (placeIn n off bs).map Placed.stored = bs := by
  induction bs generalizing off with
  | nil => rfl
  | cons b bs ih => rw [placeIn, map_cons, ih]

theorem stored_placeFrom (n : Nat) (l : Layout) : (placeFrom n l).map Placed.stored = l.flatten := by
  induction l generalizing n with
  | nil => rfl
  | cons bs l ih => rw [placeFrom, map_append, stored_placeIn, ih, flatten_cons]

theorem placeIn_append (n off : Nat) (bs bs' : List StoredBlock) :
    placeIn n off (bs ++ bs') = placeIn n off bs ++ placeIn n (off + (contentOf bs).length) bs' := by
  induction bs generalizing off with
  | nil => rfl
  | cons b bs ih =>
    rw [cons_append, placeIn, placeIn, ih, cons_append, contentOf_cons, length_append, add_assoc]

theorem placeFrom_append (n : Nat) (l l' : Layout) :
    placeFrom n (l ++ l') = placeFrom n l ++ placeFrom (n + l.length) l' := by
  induction l generalizing n with
  | nil => rfl
  | cons bs l ih =>
    rw [cons_append, placeFrom, placeFrom, ih, append_assoc, length_cons, add_assoc, add_comm 1]

/-! ## Streams over the files -/

def Ahead (l : Layout) (s : BlockfileStream) (todo : List Placed) : Prop :=
  ∃ done rest, l[s.fileNum]? = some (done ++ rest) ∧ s.currentOffset = (contentOf done).length ∧
    todo = placeIn s.fileNum s.currentOffset rest ++
      placeFrom (s.fileNum + 1) (l.drop (s.fileNum + 1))

/-- The files hold the blocks, and the last of them possibly some more bytes. -/
def Backs (files : List Bytes) (l : Layout) (tail : Bytes) : Prop :=
  ∀ f bs, l[f]? = some bs → files[f]? = some (contentOf bs ++ if f + 1 = l.length then tail else [])

section Streams

variable {l : Layout} {files : List Bytes} {tail : Bytes} {s : BlockfileStream} {p : Placed}
  {todo : List Placed}

theorem ahead_start (h : l ≠ []) : Ahead l ⟨0, 0⟩ l.placed := by
  cases l with
  | nil => exact absurd rfl h
  | cons bs l => exact ⟨[], bs, rfl, rfl, rfl⟩

theorem Ahead.nextFile (htodo : p :: todo = placeFrom (s.fileNum + 1) (l.drop (s.fileNum + 1))) :
    Ahead l ⟨s.fileNum + 1, 0⟩ (p :: todo) ∧ s.fileNum + 1 < l.length := by
  cases hdrop : l.drop (s.fileNum + 1) with
  | nil =>
    rw [hdrop] at htodo
    cases htodo
  | cons bs rest =>
    have hlt : s.fileNum + 1 < l.length := by
      have := congrArg length hdrop
      rw [length_drop, length_cons] at this
      omega
    have hget : l[s.fileNum + 1]? = some bs := by
      have h0 := congrArg (fun x => x[0]?) hdrop
      simpa using h0
    have hrest : l.drop (s.fileNum + 1 + 1) = rest := by
      rw [← tail_drop, hdrop]
      rfl
    refine ⟨⟨[], bs, hget, rfl, ?_⟩, hlt⟩
    rw [htodo, hdrop, placeFrom, hrest]

variable {n : Nat} {off : Nat} {bs : List StoredBlock} {endFileNum : Option Nat}

theorem fileNum_placeIn (h : p ∈ placeIn n off bs) : p.fileNum = n := by
  induction bs generalizing off with
  | nil => cases h
  | cons b bs ih =>
    obtain rfl | h := mem_cons.mp h
    · rfl
    · exact ih h

theorem fileNum_placeFrom (h : p ∈ placeFrom n l) : n ≤ p.fileNum ∧ p.fileNum < n + l.length := by
  induction l generalizing n with
  | nil => cases h
  | cons bs l ih =>
    rw [length_cons]
    obtain h | h := mem_append.mp h
    · rw [fileNum_placeIn h]
      omega
    · have := ih h
      omega

/-- Reading on gives the next block with its place, from whichever file it is in. -/
theorem blockStreamLoop_next (hb : Backs files l tail) (h : Ahead l s (p :: todo))
    (hend : ∀ e ∈ endFileNum, p.fileNum ≤ e) (fuel : Nat) (hfuel : p.fileNum < s.fileNum + fuel) :
    ∃ s', blockStreamLoop files endFileNum fuel s = .ok (some (p.stored.bytes, ⟨p.fileNum, p.offset,
          p.offset + (encodeVarint p.stored.bytes.length).length⟩), s') ∧ Ahead l s' todo := by
  induction fuel generalizing s with
  | zero =>
    obtain ⟨done, rest, hfile, hoff, htodo⟩ := h
    have hmem : p ∈ placeIn s.fileNum s.currentOffset rest ++
        placeFrom (s.fileNum + 1) (l.drop (s.fileNum + 1)) := by
      rw [← htodo]
      exact mem_cons_self
    obtain hmem | hmem := mem_append.mp hmem
    · have := fileNum_placeIn hmem
      omega
    · have := fileNum_placeFrom hmem
      omega
  | succ fuel ih =>
    obtain ⟨f, off⟩ := s
    obtain ⟨done, rest, hfile, hoff, htodo⟩ := h
    dsimp only at hfile hoff htodo hfuel
    subst hoff
    have hopen := hb f _ hfile
    rw [blockStreamLoop, openFile]
    rw [hopen, ofOption, ok_bind]
    cases rest with
    | cons b rest =>
      obtain ⟨rfl, rfl⟩ := cons.inj htodo
      have hnext := next_frame f (contentOf done) (contentOf rest ++
        if f + 1 = l.length then tail else []) b.short
      rw [contentOf_append, contentOf_cons, StoredBlock.frame, append_assoc,
        append_assoc, hnext, ok_bind]
      refine ⟨⟨f, (contentOf done).length + b.frame.length⟩, ?_, done ++ [b], rest, ?_, ?_, rfl⟩
      · dsimp only
        rfl
      · rw [hfile, append_assoc]
        rfl
      · simp [contentOf]
    | nil =>
      rw [placeIn, nil_append] at htodo
      obtain ⟨hahead, hlt⟩ := Ahead.nextFile (s := ⟨f, (contentOf done).length⟩) htodo
      have hlast : (if f + 1 = l.length then tail else []) = [] := if_neg (by dsimp only at hlt; omega)
      have hp : f < p.fileNum := by
        have := fileNum_placeFrom (p := p) (n := f + 1) (l := l.drop (f + 1))
          (by rw [← htodo]; exact mem_cons_self)
        omega
      have hmore : endFileNum.all (f < ·) = true := by
        cases endFileNum with
        | none => rfl
        | some e =>
          have := hend e rfl
          simp only [Option.all_some, decide_eq_true_eq]
          omega
      obtain ⟨bs, hbs⟩ : ∃ bs, l[f + 1]? = some bs := by
        obtain ⟨done', rest', hget, -⟩ := hahead
        exact ⟨_, hget⟩
      rw [hlast, append_nil, append_nil, next_end, ok_bind]
      dsimp only
      rw [if_pos ⟨rfl, hmore⟩, openFile, hb (f + 1) bs hbs, ofOption, ok_bind]
      exact ih hahead (by dsimp only; omega)

theorem length_le_of_backs (hb : Backs files l tail) : l.length ≤ files.length := by
  by_contra hlt
  have hget := hb (l.length - 1) l[l.length - 1] (getElem?_eq_getElem (by omega))
  have hlt' := lt_length hget
  omega

theorem Ahead.fileNum_lt (h : Ahead l s todo) (hp : p ∈ todo) : p.fileNum < l.length := by
  obtain ⟨done, rest, hfile, -, rfl⟩ := h
  have hlt := lt_length hfile
  obtain hp | hp := mem_append.mp hp
  · rw [fileNum_placeIn hp]
    exact hlt
  · have := fileNum_placeFrom hp
    rw [length_drop] at this
    omega

theorem blockStreamNext_next (hb : Backs files l tail) (h : Ahead l s (p :: todo))
    (hend : ∀ e ∈ endFileNum, p.fileNum ≤ e) :
    ∃ s', blockStreamNext files endFileNum s = .ok (some (p.stored.bytes, ⟨p.fileNum, p.offset,
          p.offset + (encodeVarint p.stored.bytes.length).length⟩), s') ∧ Ahead l s' todo := by
  have hlt := h.fileNum_lt mem_cons_self
  have hle := length_le_of_backs hb
  exact blockStreamLoop_next hb h hend _ (by omega)

theorem blockStreamLoop_end (hb : Backs files l []) (h : Ahead l s []) (fuel : Nat) :
    ∃ s', blockStreamLoop files (some (l.length - 1)) fuel s = .ok (none, s') := by
  induction fuel generalizing s with
  | zero => exact ⟨s, rfl⟩
  | succ fuel ih =>
    obtain ⟨f, off⟩ := s
    obtain ⟨done, rest, hfile, hoff, htodo⟩ := h
    obtain ⟨hin, hfrom⟩ := append_eq_nil_iff.mp htodo.symm
    have hrest : rest = [] := by
      cases rest with
      | nil => rfl
      | cons b rest => cases hin
    subst hoff
    subst hrest
    have hlt := lt_length hfile
    have hopen := hb f _ hfile
    rw [ite_self, append_nil, append_nil] at hopen
    rw [blockStreamLoop, openFile]
    rw [hopen, ofOption, ok_bind, next_end, ok_bind]
    dsimp only
    by_cases hmore : f < l.length - 1
    · have hget : l[f + 1]? = some l[f + 1] := getElem?_eq_getElem (by omega)
      rw [if_pos ⟨rfl, by simpa using hmore⟩, openFile, hb (f + 1) _ hget, ofOption, ok_bind]
      refine ih ⟨[], l[f + 1], hget, rfl, ?_⟩
      have hdrop : l.drop (f + 1) = l[f + 1] :: l.drop (f + 1 + 1) := drop_eq_getElem_cons _
      rw [hdrop, placeFrom] at hfrom
      exact hfrom.symm
    · rw [if_neg (fun hno => hmore (by simpa using hno.2))]
      exact ⟨_, rfl⟩

theorem blockStreamNext_end (hb : Backs files l []) (h : Ahead l s []) :
    ∃ s', blockStreamNext files (some (l.length - 1)) s = .ok (none, s') :=
  blockStreamLoop_end hb h _

variable {pre : List Placed}

theorem placeIn_split {mid : List Placed} (h : placeIn n off bs = pre ++ p :: mid) :
    ∃ done rest, bs = done ++ rest ∧ p.fileNum = n ∧ p.offset = off + (contentOf done).length ∧
      p :: mid = placeIn n p.offset rest := by
  induction bs generalizing off pre with
  | nil =>
    have := congrArg length h
    simp [placeIn] at this
  | cons b bs ih =>
    cases pre with
    | nil =>
      obtain ⟨rfl, rfl⟩ := cons.inj h
      exact ⟨[], b :: bs, rfl, rfl, rfl, rfl⟩
    | cons q pre =>
      obtain ⟨-, h⟩ := cons.inj h
      obtain ⟨done, rest, rfl, hn, hoff, hmid⟩ := ih h
      refine ⟨b :: done, rest, rfl, hn, ?_, hmid⟩
      rw [hoff, contentOf_cons, length_append, add_assoc]

variable {post : List Placed}

theorem placeFrom_split (h : placeFrom n l = pre ++ p :: post) :
    ∃ done rest, n ≤ p.fileNum ∧ l[p.fileNum - n]? = some (done ++ rest) ∧
      p.offset = (contentOf done).length ∧
      p :: post = placeIn p.fileNum p.offset rest ++
        placeFrom (p.fileNum + 1) (l.drop (p.fileNum - n + 1)) := by
  induction l generalizing n pre with
  | nil =>
    have := congrArg length h
    simp [placeFrom] at this
  | cons bs l ih =>
    have behind : ∀ pre', placeFrom (n + 1) l = pre' ++ p :: post →
        ∃ done rest, n ≤ p.fileNum ∧ (bs :: l)[p.fileNum - n]? = some (done ++ rest) ∧
          p.offset = (contentOf done).length ∧
          p :: post = placeIn p.fileNum p.offset rest ++
            placeFrom (p.fileNum + 1) ((bs :: l).drop (p.fileNum - n + 1)) := by
      intro pre' h'
      obtain ⟨done, rest, hle, hget, hoff, hpost⟩ := ih h'
      have hsub : p.fileNum - n = p.fileNum - (n + 1) + 1 := by omega
      rw [hsub]
      exact ⟨done, rest, by omega, hget, hoff, hpost⟩
    obtain ⟨r, -, hr⟩ | ⟨r, hin, hr⟩ := append_eq_append_iff.mp h
    · exact behind r hr
    · cases r with
      | nil => exact behind [] hr.symm
      | cons q mid =>
        obtain ⟨rfl, rfl⟩ := cons.inj hr
        obtain ⟨done, rest, rfl, hn, hoff, hmid⟩ := placeIn_split hin
        rw [zero_add] at hoff
        refine ⟨done, rest, by omega, ?_, hoff, ?_⟩
        · rw [hn, Nat.sub_self]
          rfl
        · rw [hn, Nat.sub_self, drop_one, tail_cons, ← hmid, cons_append]
          rfl

/-- A stream that is opened where a block stands has the block and those behind it. -/
theorem ahead_of_placed (h : l.placed = pre ++ p :: post) :
    Ahead l ⟨p.fileNum, p.offset⟩ (p :: post) := by
  obtain ⟨done, rest, -, hget, hoff, hpost⟩ := placeFrom_split h
  exact ⟨done, rest, hget, hoff, hpost⟩

theorem file_of_placed (hb : Backs files l tail) (hp : p ∈ l.placed) :
    ∃ pre post, files[p.fileNum]? = some (pre ++ (encodeRawBytes p.stored.bytes ++ post)) ∧
      pre.length = p.offset := by
  obtain ⟨before, after, hsplit⟩ := append_of_mem hp
  obtain ⟨done, rest, hget, hoff, htodo⟩ := ahead_of_placed hsplit
  cases rest with
  | nil =>
    have hmem : p ∈ placeFrom (p.fileNum + 1) (l.drop (p.fileNum + 1)) := by
      rw [placeIn, nil_append] at htodo
      rw [← htodo]
      exact mem_cons_self
    have := fileNum_placeFrom hmem
    omega
  | cons b rest =>
    have hb' := hb p.fileNum _ hget
    have hstored : p.stored = b := congrArg Placed.stored (cons.inj htodo).1
    rw [contentOf_append, contentOf_cons, append_assoc, append_assoc] at hb'
    rw [hstored]
    exact ⟨contentOf done, _, hb', hoff.symm⟩

theorem fetchBytes_placed (hb : Backs files l tail) (hp : p ∈ l.placed) (n : Nat) :
    fetchBlockBytes files ⟨p.fileNum, ⟨p.offset, n⟩⟩ = .ok p.stored.bytes := by
  obtain ⟨pre, post, hfile, hlen⟩ := file_of_placed hb hp
  rw [fetchBlockBytes, openFile]
  rw [hfile, ofOption, ok_bind, ← hlen, next_frame _ pre post p.stored.short, ok_bind]
  rfl

theorem StoredBlock.sized : Sized b.block :=
  sized_of_length_lt b.serialized (lt_trans b.short (by norm_num))

theorem fetchBlock_placed (hb : Backs files l tail) (hp : p ∈ l.placed) (n : Nat) :
    fetchBlock files ⟨p.fileNum, ⟨p.offset, n⟩⟩ = .ok p.stored.block := by
  rw [fetchBlock, fetchBytes_placed hb hp, ok_bind]
  exact (deserialize_serialize p.stored.serialized p.stored.sized).1

end Streams

end FabricOev.BlockStore
