import AuraChain.LinkedChain
import AuraChain.StoreSpec

/-! The chain that a store holds. The latest height, the index of heights and
the blocks by hash show one list of blocks, and a write at the next height
appends to it. -/

namespace AuraChain

theorem blockKey_injective : Function.Injective blockKey := fun _ _ h => List.append_cancel_left h

theorem heightKey_injective : Function.Injective heightKey :=
  fun _ _ h => UInt64.toBeBytes_injective (List.append_cancel_left h)

theorem headerHash_ne_of_height_ne {c : Crates} {headers : Set BlockHeader}
    (hinj : Set.InjOn (BlockHeader.headerHash c) headers) {header header' : BlockHeader}
    (h : header ∈ headers) (h' : header' ∈ headers) (hne : header.height ≠ header'.height) :
    (header.headerHash c).bytes ≠ (header'.headerHash c).bytes := by
  intro he
  have hsame : header = header' := hinj h h' (FixedBytes.ext he)
  exact hne (congrArg BlockHeader.height hsame)

/-- Blocks numbered by their heights, each naming the one before it. -/
abbrev Block.Linked (c : Crates) (chain : List Block) : Prop :=
  LinkedChain (fun b : Block => b.header.height.toNat) (fun b => b.header.prevHash) (Block.hash c) chain

namespace StateDB

variable {c : Crates} {data : OrdMap Bytes Bytes} {writes : List (Address × Account)} {hash : Hash}
  {height : UInt64} {blockBytes : Bytes}

theorem writtenData_height_ne {h : UInt64} (hh : height ≠ h) :
    (writtenData c data writes hash height blockBytes)[heightKey h]? = data[heightKey h]? := by
  have hk : heightKey height ≠ heightKey h := fun he => hh (heightKey_injective he)
  rw [writtenData, OrdMap.lookup_insert, if_neg (latestHeightKey_ne_heightKey h),
    OrdMap.lookup_insert, if_neg hk, OrdMap.lookup_insert, if_neg (heightKey_ne_blockKey h _).symm,
    applyWrites_other c data fun a _ => (heightKey_ne_accountKey h a).symm]

theorem writtenData_block_ne {other : Bytes} (ho : hash.bytes ≠ other) :
    (writtenData c data writes hash height blockBytes)[blockKey other]? = data[blockKey other]? := by
  have hb : blockKey hash.bytes ≠ blockKey other := fun he => ho (blockKey_injective he)
  rw [writtenData, OrdMap.lookup_insert, if_neg (latestHeightKey_ne_blockKey other),
    OrdMap.lookup_insert, if_neg (heightKey_ne_blockKey height other), OrdMap.lookup_insert,
    if_neg hb, applyWrites_other c data fun a _ => (blockKey_ne_accountKey other a).symm]

theorem size_le_applyWrites (c : Crates) (data : OrdMap Bytes Bytes)
    (writes : List (Address × Account)) : data.size ≤ (applyWrites c data writes).size := by
  induction writes generalizing data with
  | nil => exact le_rfl
  | cons p writes ih => exact Std.ExtTreeMap.size_le_size_insert.trans (ih _)

theorem size_le_blockWritten : data.size ≤
    ((applyWrites c data writes).insert (blockKey hash.bytes) blockBytes).size :=
  (size_le_applyWrites c data writes).trans Std.ExtTreeMap.size_le_size_insert

theorem size_le_writtenData : data.size ≤ (writtenData c data writes hash height blockBytes).size :=
  calc
    data.size ≤ ((applyWrites c data writes).insert (blockKey hash.bytes) blockBytes).size :=
      size_le_blockWritten
    _ ≤ (((applyWrites c data writes).insert (blockKey hash.bytes) blockBytes).insert
          (heightKey height) hash.bytes).size := Std.ExtTreeMap.size_le_size_insert
    _ ≤ (writtenData c data writes hash height blockBytes).size :=
      Std.ExtTreeMap.size_le_size_insert

theorem size_lt_writtenData (hnew : data[heightKey height]? = none) :
    data.size < (writtenData c data writes hash height blockBytes).size := by
  have habsent : ((applyWrites c data writes).insert (blockKey hash.bytes) blockBytes)[
      heightKey height]? = none := by
    rw [OrdMap.lookup_insert, if_neg (heightKey_ne_blockKey height _).symm,
      applyWrites_other c data fun a _ => (heightKey_ne_accountKey height a).symm, hnew]
  calc
    data.size ≤ ((applyWrites c data writes).insert (blockKey hash.bytes) blockBytes).size :=
      size_le_blockWritten
    _ < (((applyWrites c data writes).insert (blockKey hash.bytes) blockBytes).insert
          (heightKey height) hash.bytes).size := OrdMap.size_lt_insert habsent _
    _ ≤ (writtenData c data writes hash height blockBytes).size :=
      Std.ExtTreeMap.size_le_size_insert

structure HoldsChain (c : Crates) (db : StateDB) (chain : List Block) : Prop where
  latest : db.getLatestHeight.toNat = chain.length - 1
  heights : ∀ h : UInt64,
    db.kv.data[heightKey h]? = chain[h.toNat]?.map fun b => (b.hash c).bytes
  blocks : ∀ b ∈ chain,
    db.kv.data[blockKey (b.hash c).bytes]?.bind c.deserializeBlock = some b
  size : chain.length ≤ db.kv.data.size

namespace HoldsChain

variable {db db' : StateDB} {chain : List Block} {block : Block} {ioError : Option StorageError}

theorem empty (hdata : db.kv.data = ∅) : db.HoldsChain c [] where
  latest := by simp [getLatestHeight, KeyValueStore.get, hdata]
  heights h := by simp [hdata]
  blocks b hb := by simp at hb
  size := Nat.zero_le _

theorem congr (h : db.HoldsChain c chain) (hkv : db'.kv = db.kv) : db'.HoldsChain c chain := by
  obtain ⟨hlatest, hheights, hblocks, hsize⟩ := h
  constructor
  · rw [getLatestHeight, hkv]
    exact hlatest
  · rw [hkv]
    exact hheights
  · rw [hkv]
    exact hblocks
  · rw [hkv]
    exact hsize

theorem getBlockByHeight (h : db.HoldsChain c chain) (height : UInt64) :
    db.getBlockByHeight c height = chain[height.toNat]? := by
  rw [StateDB.getBlockByHeight, KeyValueStore.get, h.heights]
  cases hb : chain[height.toNat]? with
  | none => rfl
  | some b => exact h.blocks b (List.mem_of_getElem? hb)

theorem getLatestBlock (h : db.HoldsChain c chain) :
    db.getBlockByHeight c db.getLatestHeight = chain.getLast? := by
  rw [h.getBlockByHeight, h.latest, List.getLast?_eq_getElem?]

theorem next_absent (h : db.HoldsChain c chain) (hheight : height.toNat = chain.length) :
    db.kv.data[heightKey height]? = none := by
  rw [h.heights, hheight]
  simp

/-- A block written at the next height, under a hash of its own. -/
theorem writeBlock (h : db.HoldsChain c chain) (hrt : c.BlockRoundTrip)
    (hs : c.serializeBlock block = some blockBytes) (hheight : height.toNat = chain.length)
    (hfresh : ∀ b ∈ chain, block.hash c ≠ b.hash c) :
    (db.writeBlock c ioError writes block height).1.HoldsChain c (chain ++ [block]) := by
  rw [writeBlock_fst, hs]
  constructor
  · have hlength : (chain ++ [block]).length = chain.length + 1 := by simp
    rw [hlength, Nat.add_sub_cancel, ← hheight]
    simp [getLatestHeight, KeyValueStore.get, writtenData_latestHeight]
  · intro k
    by_cases hk : height = k
    · subst hk
      simp [writtenData_height, hheight]
    · have hne : k.toNat ≠ chain.length := fun he => hk (UInt64.toNat_inj.mp (hheight.trans he.symm))
      have hsame : (chain ++ [block])[k.toNat]? = chain[k.toNat]? := by
        rw [List.getElem?_append]
        split_ifs with hlt
        · rfl
        · rw [List.getElem?_eq_none (by simp; omega), List.getElem?_eq_none (by omega)]
      simp only [writtenData_height_ne hk, hsame]
      exact h.heights k
  · intro b hb
    rcases List.mem_append.mp hb with hb | hb
    · have hne : (block.hash c).bytes ≠ (b.hash c).bytes :=
        fun he => hfresh b hb (FixedBytes.ext he)
      simp only [writtenData_block_ne hne]
      exact h.blocks b hb
    · rw [List.mem_singleton.mp hb]
      simp [writtenData_block, hrt block blockBytes hs]
  · have hlt : db.kv.data.size <
        (writtenData c db.kv.data writes (block.hash c) height blockBytes).size :=
      size_lt_writtenData (h.next_absent hheight)
    have hle := h.size
    simp only [List.length_append, List.length_singleton]
    omega

end HoldsChain

end StateDB

end AuraChain
