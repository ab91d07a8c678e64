import FabricOev.BlockStore.Lookups

/-!
# What every crash leaves

The files, the checkpoint and the index of a store lag behind each other: a block is in its file
before the checkpoint counts it, and the checkpoint counts it before it is indexed. The invariant
says so of everything that a crash can leave of the unsynced writes, and each effect of
`addBlock` keeps it.
-/

namespace FabricOev.BlockStore

open Go Go.Wire Protos Ledger Lib List Disk Nat

def checkpointAt (fileNum size blocks : Nat) : CheckpointInfo :=
  ⟨fileNum, size, blocks = 0, UInt64.ofNat (blocks - 1)⟩

/-- The files before the current one, and the current one. -/
structure Shape where
  before : Layout
  last : List StoredBlock

namespace Shape

def layout (l : Shape) : Layout := l.before ++ [l.last]

def placed (l : Shape) : List Placed := l.layout.placed

def chain (l : Shape) : List Block := l.layout.chain

def push (l : Shape) (b : StoredBlock) : Shape := ⟨l.before, l.last ++ [b]⟩

def roll (l : Shape) : Shape := ⟨l.before ++ [l.last], []⟩

def next (l : Shape) (b : StoredBlock) : Placed := ⟨b, l.before.length, (contentOf l.last).length⟩

def checkpoint (l : Shape) : CheckpointInfo :=
  checkpointAt l.before.length (contentOf l.last).length l.placed.length

variable (l : Shape)
include l

theorem length_layout : l.layout.length = l.before.length + 1 := by
  rw [layout, length_append, length_singleton]

theorem placed_eq : l.placed = placeFrom 0 l.before ++ placeIn l.before.length 0 l.last := by
  rw [placed, layout, Layout.placed, placeFrom_append, zero_add, placeFrom, placeFrom, append_nil]

theorem placed_push (b : StoredBlock) : (l.push b).placed = l.placed ++ [l.next b] := by
  rw [placed_eq, placed_eq, push, placeIn_append, append_assoc]
  simp [placeIn, next]

theorem placed_roll : l.roll.placed = l.placed := by
  rw [placed_eq, placed_eq, roll, placeFrom_append, zero_add]
  simp [placeFrom, placeIn]

theorem chain_eq : l.chain = l.placed.map fun p => p.stored.block := l.layout.chain_eq

theorem chain_push (b : StoredBlock) : (l.push b).chain = l.chain ++ [b.block] := by
  rw [chain_eq, placed_push, map_append, ← chain_eq]
  rfl

theorem chain_roll : l.roll.chain = l.chain := by rw [chain_eq, placed_roll, ← chain_eq]

end Shape

/-- The checkpoint counts some blocks of the current file, and the index has some from the first on.
-/
structure DbOk (hash : BlockHeader → Bytes) (l : Shape) (db : LevelDb) : Prop where
  checkpoint : ∃ done todo, l.last = done ++ todo ∧ db[blkMgrInfoKey]? =
    some (checkpointAt l.before.length (contentOf done).length
      (l.placed.length - todo.length)).marshal
  index : ∃ n ≤ l.placed.length, IndexOk hash db (l.placed.take n)

theorem Disk.dbOf_append (log : List LevelBatch) (b : LevelBatch) :
    Disk.dbOf (log ++ [b]) = (Disk.dbOf log).writeBatch b := by
  rw [dbOf, foldl_append]
  rfl

section DbOk

variable {hash : BlockHeader → Bytes} {l : Shape} {db : LevelDb} {b : StoredBlock}

variable (h : DbOk hash l db)
include h

theorem DbOk.push (b : StoredBlock) : DbOk hash (l.push b) db := by
  obtain ⟨⟨done, todo, hlast, hcp⟩, n, hn, hidx⟩ := h
  constructor
  · refine ⟨done, todo ++ [b], ?_, ?_⟩
    · rw [Shape.push, hlast, append_assoc]
    · rw [hcp, Shape.placed_push, length_append, length_append]
      simp [Shape.push]
  · rw [Shape.placed_push]
    refine ⟨n, by rw [length_append]; omega, ?_⟩
    rw [take_append_of_le_length hn]
    exact hidx

theorem DbOk.save : DbOk hash l (db.writeBatch (putBatch blkMgrInfoKey l.checkpoint.marshal)) := by
  obtain ⟨n, hn, hidx⟩ := h.index
  refine ⟨⟨l.last, [], (append_nil _).symm, ?_⟩, n, hn, hidx.put _⟩
  rw [getElem?_put, if_pos rfl]
  rfl

theorem DbOk.roll :
    DbOk hash l.roll (db.writeBatch (putBatch blkMgrInfoKey l.roll.checkpoint.marshal)) := by
  obtain ⟨n, hn, hidx⟩ := h.index
  refine ⟨⟨[], [], rfl, ?_⟩, n, by rw [Shape.placed_roll]; exact hn, ?_⟩
  · rw [getElem?_put, if_pos rfl]
    rfl
  · rw [Shape.placed_roll]
    exact hidx.put _

theorem DbOk.index_next {n : Nat} {p : Placed} (hidx : IndexOk hash db (l.placed.take n))
    (hp : l.placed[n]? = some p) :
    DbOk hash l (db.writeBatch (batchOf (p.puts hash))) ∧
      IndexOk hash (db.writeBatch (batchOf (p.puts hash))) (l.placed.take (n + 1)) := by
  have hnext := hidx.index p
  have htake : l.placed.take n ++ [p] = l.placed.take (n + 1) := by
    rw [take_add_one, hp, Option.toList_some]
  rw [htake] at hnext
  have hlt := lt_length hp
  refine ⟨⟨?_, n + 1, hlt, hnext⟩, hnext⟩
  rw [checkpoint_index]
  exact h.checkpoint

end DbOk

/-! ## The files -/

/-- The files of the layout with some bytes behind the last block; unused files are empty, and the
current one may not exist. -/
structure FilesOk (files : List Bytes) (l : Shape) (tail : Bytes) : Prop where
  before : ∀ (f : Nat) bs, l.before[f]? = some bs → files[f]? = some (contentOf bs)
  last : (files[l.before.length]?).getD [] = contentOf l.last ++ tail
  rest : ∀ f : Nat, l.before.length < f → (files[f]?).getD [] = []

def Torn (t : Bytes) : Prop :=
  ∃ bs u : Bytes, bs.length < 2 ^ 56 ∧ u ≠ [] ∧ t ++ u = encodeRawBytes bs

theorem torn_nil : Torn [] := ⟨[], encodeRawBytes [], by norm_num, nofun, rfl⟩

/-- What is left of a store after a crash. -/
structure Crashed (hash : BlockHeader → Bytes) (d : Disk) (l : Shape) (tail : Bytes) : Prop where
  synced : ∀ f ∈ d.files, f.Synced
  dbSynced : d.db.Synced
  files : FilesOk d.contents l tail
  torn : Torn tail
  db : DbOk hash l d.levelDb

/-- Between two calls and while the database is written: all files are synced, and every part of the
database's writes that may be left fits them. -/
structure Idle (hash : BlockHeader → Bytes) (d : Disk) (l : Shape) : Prop where
  synced : ∀ f ∈ d.files, f.Synced
  files : FilesOk d.contents l []
  db : CrashLog.Survives (fun log => DbOk hash l (Disk.dbOf log)) d.db

/-- Whatever a crash leaves is a store with blocks that `P` holds of. -/
def Recoverable (hash : BlockHeader → Bytes) (P : Shape → Prop) (d : Disk) : Prop :=
  ∀ bytes writes, ∃ l tail, Crashed hash (d.crash bytes writes) l tail ∧ P l

section Idle

variable {hash : BlockHeader → Bytes} {d : Disk} {l : Shape} {b : StoredBlock} {n : Nat}
  {batch : LevelBatch}

theorem contents_crash (h : ∀ f ∈ d.files, f.Synced) (bytes : Nat → Nat) (writes : Nat) :
    (d.crash bytes writes).contents = d.contents := by
  rw [contents, contents, crash, mapIdx_eq_zipIdx_map, map_map]
  refine ext_getElem? fun i => ?_
  rw [getElem?_map, getElem?_map, getElem?_zipIdx]
  cases hi : d.files[i]? with
  | none => rfl
  | some f =>
    simp only [Option.map_some, Function.comp_apply, Option.some.injEq]
    exact (h f (mem_of_getElem? hi)).crash_entries _

theorem synced_crash (d : Disk) (bytes : Nat → Nat) (writes : Nat) :
    ∀ f ∈ (d.crash bytes writes).files, f.Synced := by
  intro f hf
  obtain ⟨i, hi, rfl⟩ := mem_mapIdx.mp hf
  exact CrashLog.synced_crash _ _

theorem Idle.recoverable (h : Idle hash d l) : Recoverable hash (· = l) d := by
  intro bytes writes
  refine ⟨l, [], ⟨synced_crash d bytes writes, CrashLog.synced_crash _ _, ?_, torn_nil,
    h.db writes⟩, rfl⟩
  rw [contents_crash h.synced]
  exact h.files

theorem contents_openFile (d : Disk) (n : Nat) :
    (d.apply (.openFile n)).contents =
      if n < d.files.length then d.contents else d.contents ++ [[]] := by
  rw [contents, apply]
  split
  · rfl
  · rw [map_append]
    rfl

theorem getElem?_openFile (d : Disk) (hn : n ≤ d.files.length) (f : Nat) :
    (d.apply (.openFile n)).contents[f]? =
      if f = n then some ((d.contents[n]?).getD []) else d.contents[f]? := by
  have hlen : d.contents.length = d.files.length := length_map _
  rw [contents_openFile]
  by_cases hlt : n < d.files.length
  · rw [if_pos hlt]
    by_cases hf : f = n
    · subst hf
      rw [if_pos rfl, getElem?_eq_getElem (by omega)]
      rfl
    · rw [if_neg hf]
  · rw [if_neg hlt]
    by_cases hf : f = n
    · subst hf
      rw [if_pos rfl, getElem?_append_right (by omega), getElem?_eq_none (l := d.contents)
        (by omega), hlen, show f - d.files.length = 0 by omega]
      rfl
    · rw [if_neg hf]
      by_cases hlf : f < d.files.length
      · rw [getElem?_append_left (by omega)]
      · rw [getElem?_append_right (by omega), getElem?_eq_none (by simp; omega),
          getElem?_eq_none (by omega)]

theorem FilesOk.openFile {t : Bytes} (h : FilesOk d.contents l t) (hn : n ≤ d.files.length) :
    FilesOk (d.apply (.openFile n)).contents l t := by
  have hgetD : ∀ f : Nat, ((d.apply (.openFile n)).contents[f]?).getD [] =
      (d.contents[f]?).getD [] := by
    intro f
    rw [getElem?_openFile d hn]
    split
    · rename_i heq
      rw [heq, Option.getD_some]
    · rfl
  refine ⟨fun f bs hf => ?_, (hgetD _).trans h.last, fun f hf => (hgetD f).trans (h.rest f hf)⟩
  have hget := h.before f bs hf
  rw [getElem?_openFile d hn]
  split
  · rename_i heq
    rw [← heq, hget]
    rfl
  · exact hget

theorem synced_openFile (h : ∀ f ∈ d.files, f.Synced) (n : Nat) :
    ∀ f ∈ (d.apply (.openFile n)).files, f.Synced := by
  intro f hf
  have hf : f ∈ if n < d.files.length then d.files else d.files ++ [CrashLog.empty] := hf
  split at hf
  · exact h f hf
  · obtain hf | hf := mem_append.mp hf
    · exact h f hf
    · rw [mem_singleton.mp hf]
      rfl

theorem length_openFile (hn : n ≤ d.files.length) : n < (d.apply (.openFile n)).files.length := by
  rw [apply]
  split
  · assumption
  · rw [length_append, length_singleton]
    omega

theorem Idle.openFile (h : Idle hash d l) (hn : n ≤ d.files.length) :
    Idle hash (d.apply (.openFile n)) l :=
  ⟨synced_openFile h.synced n, h.files.openFile hn, h.db⟩

theorem FilesOk.length_le {files : List Bytes} {t : Bytes} (h : FilesOk files l t) :
    l.before.length ≤ files.length := by
  by_contra hlt
  have hget := h.before files.length l.before[files.length] (getElem?_eq_getElem (by omega))
  rw [getElem?_eq_none (le_refl _)] at hget
  cases hget

theorem Idle.write (h : Idle hash d l) (hdb : DbOk hash l (d.levelDb.writeBatch batch)) :
    Idle hash (d.apply (.write batch false)) l := by
  refine ⟨h.synced, h.files, h.db.append_singleton ?_⟩
  rw [dbOf_append]
  exact hdb

theorem Idle.write_synced (h : Idle hash d l) {l' : Shape} (hfiles : FilesOk d.contents l' [])
    (hdb : DbOk hash l' (d.levelDb.writeBatch batch)) :
    Idle hash (d.apply (.write batch true)) l' := by
  refine ⟨h.synced, hfiles, CrashLog.survives_of_synced (CrashLog.synced_sync _) ?_⟩
  show DbOk hash l' (dbOf (d.db.entries ++ [batch]))
  rw [dbOf_append]
  exact hdb

theorem FilesOk.roll {files : List Bytes} (h : FilesOk files l [])
    (hfile : l.before.length < files.length) : FilesOk files l.roll [] := by
  have hlast : files[l.before.length]? = some (contentOf l.last) := by
    have hlast := h.last
    rw [getElem?_eq_getElem hfile, Option.getD_some, append_nil] at hlast
    rw [getElem?_eq_getElem hfile, hlast]
  refine ⟨fun f bs hf => ?_, ?_, fun f hf => h.rest f ?_⟩
  · obtain hf | ⟨rfl, rfl⟩ := getElem?_concat_eq_some.mp hf
    · exact h.before f bs hf
    · exact hlast
  · exact h.rest _ (by simp [Shape.roll])
  · rw [Shape.roll, length_append] at hf
    omega

theorem Idle.roll (h : Idle hash d l) (hfile : l.before.length < d.files.length) :
    Idle hash (d.apply (.write (putBatch blkMgrInfoKey l.roll.checkpoint.marshal) true)) l.roll :=
  h.write_synced (h.files.roll (by rw [contents, length_map]; exact hfile)) h.db.now.roll

end Idle

/-- The current file has a part of the block behind what was synced. -/
structure Appending (hash : BlockHeader → Bytes) (d : Disk) (l : Shape) (b : StoredBlock)
    (t : Bytes) : Prop where
  files : FilesOk d.contents l t
  current : ∃ f, d.files[l.before.length]? = some f ∧ (contentOf l.last).length ≤ f.synced
  others : ∀ (i : Nat) f, d.files[i]? = some f → i ≠ l.before.length → f.Synced
  db : CrashLog.Survives (fun log => DbOk hash l (Disk.dbOf log)) d.db
  part : ∃ u, t ++ u = b.frame

section Appending

variable {hash : BlockHeader → Bytes} {d : Disk} {l : Shape} {b : StoredBlock} {t : Bytes}

theorem getElem?_contents (d : Disk) (i : Nat) :
    d.contents[i]? = d.files[i]?.map fun f => f.entries := getElem?_map

theorem Idle.appending (h : Idle hash d l) (hfile : l.before.length < d.files.length)
    (b : StoredBlock) : Appending hash d l b [] := by
  refine ⟨h.files, ⟨d.files[l.before.length], getElem?_eq_getElem hfile, ?_⟩,
    fun i f hf _ => h.synced f (mem_of_getElem? hf), h.db, b.frame, rfl⟩
  have hlast := h.files.last
  rw [getElem?_contents, getElem?_eq_getElem hfile, Option.map_some, Option.getD_some,
    append_nil] at hlast
  rw [h.synced _ (getElem_mem hfile), hlast]

theorem FilesOk.modify {files files' : List Bytes} {t' : Bytes} (h : FilesOk files l t)
    (hsame : ∀ i : Nat, i ≠ l.before.length → files'[i]? = files[i]?)
    (hlast : (files'[l.before.length]?).getD [] = contentOf l.last ++ t') : FilesOk files' l t' := by
  refine ⟨fun f bs hf => ?_, hlast, fun f hf => ?_⟩
  · have hlt := lt_length hf
    rw [hsame f (by omega)]
    exact h.before f bs hf
  · rw [hsame f (by omega)]
    exact h.rest f hf

theorem Appending.append (h : Appending hash d l b t) (bs u : Bytes)
    (hpart : t ++ bs ++ u = b.frame) :
    Appending hash (d.apply (.append l.before.length bs)) l b (t ++ bs) := by
  obtain ⟨f, hf, hsynced⟩ := h.current
  have hfile : (d.files.modify l.before.length (·.append bs))[l.before.length]? =
      some (f.append bs) := by
    rw [getElem?_modify, hf]
    simp
  have hother : ∀ i : Nat, i ≠ l.before.length →
      (d.files.modify l.before.length (·.append bs))[i]? = d.files[i]? := by
    intro i hi
    simp [Ne.symm hi]
  have hlast := h.files.last
  rw [getElem?_contents, hf, Option.map_some, Option.getD_some] at hlast
  refine ⟨h.files.modify (fun i hi => ?_) ?_, ⟨f.append bs, hfile, hsynced⟩, fun i g hg hi => ?_,
    h.db, u, hpart⟩
  · rw [getElem?_contents, getElem?_contents, apply, hother i hi]
  · rw [getElem?_contents, apply, hfile, Option.map_some, Option.getD_some,
      CrashLog.entries_append, hlast, append_assoc]
  · exact h.others i g ((hother i hi).symm.trans hg) hi

theorem FilesOk.push {files : List Bytes} (h : FilesOk files l b.frame) :
    FilesOk files (l.push b) [] := by
  refine ⟨h.before, ?_, h.rest⟩
  rw [append_nil, Shape.push, contentOf_append, contentOf_cons]
  exact h.last.trans (by simp [contentOf])

theorem Appending.sync (h : Appending hash d l b b.frame) :
    Idle hash (d.apply (.syncFile l.before.length)) (l.push b) := by
  have hcontents : (d.apply (.syncFile l.before.length)).contents = d.contents := by
    refine ext_getElem? fun i => ?_
    rw [getElem?_contents, getElem?_contents, apply, getElem?_modify]
    cases d.files[i]? with
    | none => rfl
    | some f => split <;> rfl
  refine ⟨fun f hf => ?_, ?_, h.db.imp fun log hlog => hlog.push b⟩
  · obtain ⟨i, hi⟩ := mem_iff_getElem?.mp hf
    rw [apply, getElem?_modify] at hi
    obtain ⟨g, hg, rfl⟩ := Option.map_eq_some_iff.mp hi
    split
    · exact CrashLog.synced_sync g
    · rename_i hne
      exact h.others i g hg (Ne.symm hne)
  · rw [hcontents]
    exact h.files.push

/-- A crash leaves the block or a part of it. -/
theorem Appending.recoverable (h : Appending hash d l b t) :
    Recoverable hash (fun l' => l' = l ∨ l' = l.push b) d := by
  intro bytes writes
  obtain ⟨f, hf, hsynced⟩ := h.current
  obtain ⟨u, hu⟩ := h.part
  have hlast := h.files.last
  rw [getElem?_contents, hf, Option.map_some, Option.getD_some] at hlast
  -- the part of the block that is left
  obtain ⟨t', u', ht', hfile⟩ : ∃ t' u', t' ++ u' = b.frame ∧
      FilesOk (d.crash bytes writes).contents l t' := by
    refine ⟨t.take (max f.synced (bytes l.before.length) - (contentOf l.last).length),
      t.drop (max f.synced (bytes l.before.length) - (contentOf l.last).length) ++ u, ?_,
      h.files.modify (fun i hi => ?_) ?_⟩
    · rw [← append_assoc, take_append_drop, hu]
    · rw [getElem?_contents, getElem?_contents, crash, getElem?_mapIdx]
      cases hi' : d.files[i]? with
      | none => rfl
      | some g => simp only [Option.map_some, (h.others i g hi' hi).crash_entries]
    · rw [getElem?_contents, crash, getElem?_mapIdx, hf, Option.map_some,
        Option.map_some, Option.getD_some, CrashLog.entries_crash, hlast, take_append,
        take_of_length_le (by omega)]
  have hdb := h.db writes
  by_cases hu' : u' = []
  · subst hu'
    rw [append_nil] at ht'
    subst ht'
    exact ⟨l.push b, [], ⟨synced_crash d bytes writes, CrashLog.synced_crash _ _, hfile.push,
      torn_nil, hdb.push b⟩, .inr rfl⟩
  · exact ⟨l, t', ⟨synced_crash d bytes writes, CrashLog.synced_crash _ _, hfile,
      ⟨b.bytes, u', b.short, hu', ht'⟩, hdb⟩, .inl rfl⟩

end Appending

end FabricOev.BlockStore
