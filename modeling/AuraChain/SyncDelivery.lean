import AuraChain.Cursor
import AuraChain.SyncChecks

/-! Blocks of one chain that come to a syncer in any order, as often as they may, in
batches of any size, with blocks among them that belong nowhere. -/

namespace AuraChain

namespace ChainSyncer

theorem addressOrder_perm (overlay : StateOverlay) :
    overlay.accounts.toList.Perm overlay.accounts.toList := .refl _

/-- A commit that meets no error, its accounts in the order of their addresses. -/
def quiet : Env := ⟨0, none, fun overlay => overlay.accounts.toList, addressOrder_perm⟩

/-- The state behind the first blocks of a chain. -/
def stateAt (c : Crates) (db : StateDB) (chain : List Block) (k : Nat) : StateDB :=
  (chain.take k).foldl (fun db block => (transition c quiet db block).1) db

/-- Each block extends the state that those before it leave. -/
structure ValidChain (c : Crates) (db : StateDB) (chain : List Block) : Prop where
  stored : (db.getBlockByHeight c db.getLatestHeight).isSome = true
  next : ∀ k block, chain[k]? = some block → (stateAt c db chain k).Extends c block
  serializes : ∀ block ∈ chain, (c.serializeBlock block).isSome = true
  short : chain.length < 2 ^ 64

/-- A block that extends the chain nowhere. -/
def Foreign (c : Crates) (db : StateDB) (chain : List Block) (block : Block) : Prop :=
  ∀ k ≤ chain.length, ¬ (stateAt c db chain k).Extends c block

variable {c : Crates} {db : StateDB} {chain blocks rest : List Block} {block : Block} {k : Nat}
  {env : Block → Env}

theorem transition_quiet (hinj : Function.Injective (addressKeyHash c)) (e : Env) (db : StateDB)
    (block : Block) : (transition c e db block).1 = (transition c quiet db block).1 :=
  StateDB.commitBlock_env_irrelevant hinj e quiet db block _

theorem transition_ok {e : Env} (hs : (c.serializeBlock block).isSome = true)
    (he : e.ioError = none) (db : StateDB) : ∃ root, (transition c e db block).2 = .ok root := by
  have hfails : db.commitFails c e block = false := by
    rw [StateDB.commitFails, he, Option.isNone_eq_false_iff.mpr hs]
    simp
  obtain ⟨db', root, hcommit⟩ := StateDB.commitBlock_succeeds hfails
    (block.transactions.foldl (applyTransaction c db) StateOverlay.new)
  exact ⟨root, by rw [transition, hcommit]⟩

theorem quiet_ok (hs : (c.serializeBlock block).isSome = true) (db : StateDB) :
    ∃ root, (transition c quiet db block).2 = .ok root :=
  transition_ok hs rfl db

theorem stateAt_succ (hblock : chain[k]? = some block) :
    stateAt c db chain (k + 1) = (transition c quiet (stateAt c db chain k) block).1 := by
  rw [stateAt, List.take_add_one, hblock, List.foldl_append]
  rfl

theorem applyBlockBatch_skip (env : Block → Env) (h : block.header.height ≠ db.getLatestHeight + 1)
    (rest : List Block) :
    applyBlockBatch c env db (block :: rest) = applyBlockBatch c env db rest := by
  rw [applyBlockBatch, applyBlocks, if_pos h]
  rfl

namespace ValidChain

theorem stored_at (h : ValidChain c db chain) (hrt : c.BlockRoundTrip) (hk : k ≤ chain.length) :
    ((stateAt c db chain k).getBlockByHeight c (stateAt c db chain k).getLatestHeight).isSome =
      true := by
  cases k with
  | zero => exact h.stored
  | succ k =>
    have hblock := List.getElem?_eq_getElem (l := chain) (i := k) hk
    obtain ⟨root, hok⟩ := quiet_ok (h.serializes _ (List.getElem_mem hk)) (stateAt c db chain k)
    rw [stateAt_succ hblock]
    exact transition_stored hrt hok

theorem latestHeight_at (h : ValidChain c db chain) (hk : k ≤ chain.length) :
    (stateAt c db chain k).getLatestHeight = db.getLatestHeight + UInt64.ofNat k := by
  induction k with
  | zero => simp [stateAt]
  | succ k ih =>
    have hblock := List.getElem?_eq_getElem (l := chain) (i := k) hk
    obtain ⟨root, hok⟩ := quiet_ok (h.serializes _ (List.getElem_mem hk)) (stateAt c db chain k)
    rw [stateAt_succ hblock, transition_latestHeight hok, (h.next k _ hblock).height,
      ih (Nat.le_of_succ_le hk), UInt64.ofNat_add, UInt64.add_assoc]
    rfl

/-- Of all blocks of the chain only the next one has the next height. -/
theorem next_of_height (h : ValidChain c db chain) (hk : k ≤ chain.length) (hblock : block ∈ chain)
    (hheight : block.header.height = (stateAt c db chain k).getLatestHeight + 1) :
    chain[k]? = some block := by
  obtain ⟨i, hi, rfl⟩ := List.getElem_of_mem hblock
  have hnext := (h.next i _ (List.getElem?_eq_getElem hi)).height
  rw [hheight, h.latestHeight_at hk, h.latestHeight_at hi.le, add_left_inj, add_right_inj] at hnext
  have hsame := congrArg UInt64.toNat hnext
  have hshort := h.short
  rw [UInt64.toNat_ofNat', UInt64.toNat_ofNat', Nat.mod_eq_of_lt (by omega),
    Nat.mod_eq_of_lt (by omega)] at hsame
  rw [hsame]
  exact List.getElem?_eq_getElem hi

/-- A batch takes the syncer on along the chain, to where the cursor gets if no block
is foreign and no error is met. -/
theorem batch (h : ValidChain c db chain) (hrt : c.BlockRoundTrip)
    (hinj : Function.Injective (addressKeyHash c)) (hk : k ≤ chain.length)
    (hblocks : ∀ b ∈ blocks, b ∈ chain ∨ Foreign c db chain b) :
    ∃ k' result, k ≤ k' ∧ k' ≤ chain.length ∧
      applyBlockBatch c env (stateAt c db chain k) blocks = .ok (stateAt c db chain k', result) ∧
      ((∀ b ∈ blocks, b ∈ chain ∧ (env b).ioError = none) → k' = Cursor.feedAll chain k blocks ∧
        result = .ok (stateAt c db chain k').getLatestHeight) := by
  induction blocks generalizing k with
  | nil => exact ⟨k, _, Nat.le_refl k, hk, rfl, fun _ => ⟨rfl, rfl⟩⟩
  | cons block rest ih =>
    have hrest : ∀ b ∈ rest, b ∈ chain ∨ Foreign c db chain b :=
      fun b hb => hblocks b (List.mem_cons_of_mem _ hb)
    by_cases hheight : block.header.height = (stateAt c db chain k).getLatestHeight + 1
    · rcases hblocks block List.mem_cons_self with hmem | hforeign
      · have hblock := h.next_of_height hk hmem hheight
        have hlt : k < chain.length := (List.getElem?_eq_some_iff.mp hblock).1
        have hstate : ∀ e, (transition c e (stateAt c db chain k) block).1 =
            stateAt c db chain (k + 1) := by
          intro e
          rw [transition_quiet hinj, stateAt_succ hblock]
        rcases applyBlockBatch_extends env (h.next k block hblock) rest with
          ⟨db', e, ht, hbatch⟩ | ⟨db', root, ht, hbatch⟩
        · refine ⟨k + 1, .error (.storage e), Nat.le_succ k, hlt, ?_, fun hquiet => ?_⟩
          · rw [hbatch, ← hstate (env block), ht]
          · obtain ⟨root, hok⟩ := transition_ok (h.serializes block hmem)
              (hquiet block List.mem_cons_self).2 (stateAt c db chain k)
            rw [ht] at hok
            cases hok
        · have hdb : db' = stateAt c db chain (k + 1) := by rw [← hstate (env block), ht]
          obtain ⟨k', result, hle, hle', hrun, hexact⟩ := ih hlt hrest
          refine ⟨k', result, Nat.le_of_succ_le hle, hle', by rw [hbatch, hdb, hrun],
            fun hquiet => ?_⟩
          rw [Cursor.feedAll, List.foldl_cons, Cursor.feed_pos hblock]
          exact hexact fun b hb => hquiet b (List.mem_cons_of_mem _ hb)
      · have hnone := hforeign k hk
        have hturn := applyBlockBatch_turn c env (stateAt c db chain k) block rest
        have hmine : (∀ b ∈ block :: rest, b ∈ chain ∧ (env b).ioError = none) → False := by
          intro hquiet
          exact hnone (h.next k block
            (h.next_of_height hk (hquiet block List.mem_cons_self).1 hheight))
        generalize applyBlockBatch c env (stateAt c db chain k) (block :: rest) = r at hturn
        cases hturn with
        | skipped hne => exact absurd hheight hne
        | rejected e _ => exact ⟨k, _, Nat.le_refl k, hk, rfl, fun hquiet => (hmine hquiet).elim⟩
        | orphaned hno =>
          have hstored := h.stored_at hrt hk
          rw [hno] at hstored
          cases hstored
        | failed hextends _ => exact absurd hextends hnone
        | committed hextends _ => exact absurd hextends hnone
    · obtain ⟨k', result, hle, hle', hrun, hexact⟩ := ih hk hrest
      refine ⟨k', result, hle, hle', by rw [applyBlockBatch_skip env hheight, hrun], fun hquiet => ?_⟩
      have hskip : chain[k]? ≠ some block := fun hblock => hheight (h.next k block hblock).height
      rw [Cursor.feedAll, List.foldl_cons, Cursor.feed_neg hskip]
      exact hexact fun b hb => hquiet b (List.mem_cons_of_mem _ hb)

theorem calls_from (h : ValidChain c db chain) (hrt : c.BlockRoundTrip)
    (hinj : Function.Injective (addressKeyHash c)) (hk : k ≤ chain.length) (calls : List SyncCall)
    (hblocks : ∀ call ∈ calls, ∀ b ∈ call.blocks, b ∈ chain ∨ Foreign c db chain b) :
    ∃ k' log, k' ≤ chain.length ∧
      runAll (syncStep c) (fun _ _ => True) (stateAt c db chain k) calls =
        some (stateAt c db chain k', log) ∧
      ((∀ call ∈ calls, ∀ b ∈ call.blocks, b ∈ chain ∧ (call.env b).ioError = none) →
        k' = Cursor.feedAll chain k (calls.flatMap SyncCall.blocks) ∧
          ∀ result ∈ log, ∃ height, result = .ok height) := by
  induction calls generalizing k with
  | nil => exact ⟨k, [], hk, rfl, fun _ => ⟨rfl, by simp⟩⟩
  | cons call calls ih =>
    obtain ⟨k₁, result, -, hk₁, hbatch, hexact₁⟩ :=
      h.batch hrt hinj hk (hblocks call List.mem_cons_self)
    obtain ⟨k₂, log, hk₂, hrun, hexact₂⟩ :=
      ih hk₁ fun other hother => hblocks other (List.mem_cons_of_mem _ hother)
    refine ⟨k₂, result :: log, hk₂, ?_, fun hquiet => ?_⟩
    · rw [runAll, if_pos trivial, syncStep, hbatch]
      dsimp only
      rw [hrun]
      rfl
    · obtain ⟨rfl, hresult⟩ := hexact₁ (hquiet call List.mem_cons_self)
      obtain ⟨hcursor, hlog⟩ := hexact₂ fun other hother => hquiet other (List.mem_cons_of_mem _ hother)
      refine ⟨by rw [hcursor, List.flatMap_cons, Cursor.feedAll_append], fun r hr => ?_⟩
      rcases List.mem_cons.mp hr with rfl | hr
      · exact ⟨_, hresult⟩
      · exact hlog r hr

end ValidChain

/-- Calls with blocks of a valid chain, and foreign ones among them, never panic and
leave the state behind some first blocks of the chain. Without foreign blocks and
errors of the disk all calls succeed, and the state is behind the longest beginning
of the chain that the blocks have in its order. -/
theorem batches_deliver (hrt : c.BlockRoundTrip) (hinj : Function.Injective (addressKeyHash c))
    (h : ValidChain c db chain) (calls : List SyncCall)
    (hblocks : ∀ call ∈ calls, ∀ b ∈ call.blocks, b ∈ chain ∨ Foreign c db chain b) :
    ∃ k log, k ≤ chain.length ∧
      runAll (syncStep c) (fun _ _ => True) db calls = some (stateAt c db chain k, log) ∧
      ((∀ call ∈ calls, ∀ b ∈ call.blocks, b ∈ chain ∧ (call.env b).ioError = none) →
        (∀ m ≤ chain.length, m ≤ k ↔ (chain.take m).Sublist (calls.flatMap SyncCall.blocks)) ∧
          ∀ result ∈ log, ∃ height, result = .ok height) := by
  obtain ⟨k, log, hk, hrun, hexact⟩ := h.calls_from hrt hinj (Nat.zero_le _) calls hblocks
  refine ⟨k, log, hk, hrun, fun hquiet => ?_⟩
  obtain ⟨rfl, hlog⟩ := hexact hquiet
  refine ⟨fun m hm => ?_, hlog⟩
  rw [Cursor.le_feedAll_iff hm (Nat.zero_le m), List.drop_zero]

end ChainSyncer

namespace SyncDelivery

open SyncChain SyncChecks

/-- The second block comes too early, and the first one twice. -/
def calls : List ChainSyncer.SyncCall := [⟨env, [second, first, first]⟩, ⟨env, [first, second]⟩]

theorem valid : ChainSyncer.ValidChain SyncChain.crates genesisDb [first, second] where
  stored := by decide +kernel
  next := by
    intro k block hblock
    rcases k with - | - | k
    · cases hblock
      exact first_extends
    · cases hblock
      exact second_extends
    · cases hblock
  serializes := by decide +kernel
  short := by decide

theorem batches_deliver_late : ∃ log, runAll (ChainSyncer.syncStep SyncChain.crates) (fun _ _ => True)
      genesisDb calls =
        some (ChainSyncer.stateAt SyncChain.crates genesisDb [first, second] 2, log) ∧
    ∀ result ∈ log, ∃ height, result = .ok height := by
  have hmem : ∀ call ∈ calls, ∀ b ∈ call.blocks, b ∈ [first, second] := by
    intro call hcall b hb
    simp only [calls, List.mem_cons, List.not_mem_nil, or_false] at hcall
    rcases hcall with rfl | rfl
    · simp only [List.mem_cons, List.not_mem_nil, or_false] at hb
      rcases hb with rfl | rfl | rfl <;> simp
    · exact hb
  obtain ⟨k, log, hk, hrun, hexact⟩ := ChainSyncer.batches_deliver (Reference.blockRoundTrip _)
    (Reference.addressKeyHash_injective _) valid calls fun call hcall b hb => .inl (hmem call hcall b hb)
  have hquiet : ∀ call ∈ calls, ∀ b ∈ call.blocks,
      b ∈ [first, second] ∧ (call.env b).ioError = none := by
    intro call hcall b hb
    refine ⟨hmem call hcall b hb, ?_⟩
    simp only [calls, List.mem_cons, List.not_mem_nil, or_false] at hcall
    rcases hcall with rfl | rfl <;> rfl
  obtain ⟨hreach, hlog⟩ := hexact hquiet
  have hsublist : ([first, second].take 2).Sublist (calls.flatMap ChainSyncer.SyncCall.blocks) :=
    .cons second (.cons_cons first (.cons first (.cons first (.refl [second]))))
  obtain rfl : k = 2 := Nat.le_antisymm hk ((hreach 2 (Nat.le_refl 2)).mpr hsublist)
  exact ⟨log, hrun, hlog⟩

end SyncDelivery

end AuraChain
