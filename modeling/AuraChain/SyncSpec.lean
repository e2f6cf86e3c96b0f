import AuraChain.Sync

/-! What one turn of the loop over a batch can do, and what a batch keeps. -/

namespace AuraChain

/-- What the syncer checks of a block against the state that it meets. -/
structure StateDB.Extends (c : Crates) (db : StateDB) (block : Block) : Prop where
  height : block.header.height = db.getLatestHeight + 1
  valid : block.validateBasic c = .ok ()
  linked : ∃ prev, db.getBlockByHeight c db.getLatestHeight = some prev ∧
    block.header.prevHash = prev.hash c

namespace ChainSyncer

/-- The transition that a block makes once its checks have passed. -/
def transition (c : Crates) (env : Env) (db : StateDB) (block : Block) :
    StateDB × Except StorageError Hash :=
  db.commitBlock c env block (block.transactions.foldl (applyTransaction c db) StateOverlay.new)

inductive Turn (c : Crates) (env : Block → Env) (db : StateDB) (block : Block) (rest : List Block) :
    Except Panic (StateDB × Except SyncError UInt64) → Prop
  | skipped (h : block.header.height ≠ db.getLatestHeight + 1) :
      Turn c env db block rest (applyBlockBatch c env db rest)
  | rejected (e : SyncError) (h : ¬ db.Extends c block) : Turn c env db block rest (.ok (db, .error e))
  | orphaned (h : db.getBlockByHeight c db.getLatestHeight = none) :
      Turn c env db block rest (.error .previousBlockMustExist)
  | failed (h : db.Extends c block) {db' : StateDB} {e : StorageError}
      (ht : transition c (env block) db block = (db', .error e)) :
      Turn c env db block rest (.ok (db', .error (.storage e)))
  | committed (h : db.Extends c block) {db' : StateDB} {root : Hash}
      (ht : transition c (env block) db block = (db', .ok root)) :
      Turn c env db block rest (applyBlockBatch c env db' rest)

variable {c : Crates} {env : Block → Env} {db db' : StateDB} {block : Block} {blocks rest : List Block}
  {result : Except SyncError UInt64} {root : Hash}

theorem transition_latestHeight {e : Env} (h : (transition c e db block).2 = .ok root) :
    (transition c e db block).1.getLatestHeight = block.header.height := by
  obtain ⟨blockBytes, hs, -⟩ := StateDB.writeBlock_ok h
  rw [transition, StateDB.commitBlock, StateDB.writeBlock_getLatestHeight, hs]
  rfl

theorem transition_stored (hrt : c.BlockRoundTrip) {e : Env}
    (h : (transition c e db block).2 = .ok root) :
    ((transition c e db block).1.getBlockByHeight c
      (transition c e db block).1.getLatestHeight).isSome = true := by
  have hlatest := StateDB.writeBlock_latest hrt h
  rw [transition_latestHeight h, transition, StateDB.commitBlock, hlatest.2]
  rfl

theorem applyBlockBatch_turn (c : Crates) (env : Block → Env) (db : StateDB) (block : Block)
    (rest : List Block) :
    Turn c env db block rest (applyBlockBatch c env db (block :: rest)) := by
  rw [applyBlockBatch, applyBlocks]
  by_cases hheight : block.header.height = db.getLatestHeight + 1
  · rw [if_neg (not_not.mpr hheight)]
    cases hvalid : block.validateBasic c with
    | error e => exact .rejected _ fun h => by simp [h.valid] at hvalid
    | ok _ =>
      cases hprev : db.getBlockByHeight c db.getLatestHeight with
      | none => exact .orphaned hprev
      | some prev =>
        by_cases hlink : block.header.prevHash = prev.hash c
        · have hextends : db.Extends c block := ⟨hheight, hvalid, prev, hprev, hlink⟩
          simp only [if_neg (not_not.mpr hlink)]
          cases ht : transition c (env block) db block with
          | mk db' outcome =>
            have ht' := ht
            rw [transition] at ht'
            cases outcome with
            | error e =>
              simp only [ht']
              exact .failed hextends ht
            | ok root =>
              have hlatest := transition_latestHeight (congrArg Prod.snd ht)
              rw [ht] at hlatest
              simp only [ht', ← hlatest]
              exact .committed hextends ht
        · simp only [if_pos hlink]
          refine .rejected _ fun h => ?_
          obtain ⟨prev', hprev', hlink'⟩ := h.linked
          rw [hprev, Option.some.injEq] at hprev'
          exact hlink (hprev' ▸ hlink')
  · rw [if_pos hheight]
    exact .skipped hheight

/-- The turn of a block that passes its checks is its transition. -/
theorem applyBlockBatch_extends (env : Block → Env) (h : db.Extends c block) (rest : List Block) :
    (∃ db' e, transition c (env block) db block = (db', .error e) ∧
      applyBlockBatch c env db (block :: rest) = .ok (db', .error (.storage e))) ∨
    ∃ db' root, transition c (env block) db block = (db', .ok root) ∧
      applyBlockBatch c env db (block :: rest) = applyBlockBatch c env db' rest := by
  have hturn := applyBlockBatch_turn c env db block rest
  generalize applyBlockBatch c env db (block :: rest) = r at hturn
  cases hturn with
  | skipped hne => exact absurd h.height hne
  | rejected e hno => exact absurd h hno
  | orphaned hnone =>
    obtain ⟨prev, hprev, -⟩ := h.linked
    rw [hnone] at hprev
    cases hprev
  | failed _ ht => exact .inl ⟨_, _, ht, rfl⟩
  | committed _ ht => exact .inr ⟨_, _, ht, rfl⟩

theorem applyBlockBatch_singleton (env : Block → Env) (h : db.Extends c block) :
    ∃ result, applyBlockBatch c env db [block] = .ok ((transition c (env block) db block).1, result) ∧
      (db.commitFails c (env block) block = false → result = .ok block.header.height) := by
  rcases applyBlockBatch_extends env h [] with ⟨db', e, ht, hbatch⟩ | ⟨db', root, ht, hbatch⟩
  · refine ⟨_, by rw [hbatch, ht], fun hstore => ?_⟩
    obtain ⟨db', root, hcommit⟩ := StateDB.commitBlock_succeeds hstore
      (block.transactions.foldl (applyTransaction c db) StateOverlay.new)
    rw [transition, hcommit] at ht
    cases ht
  · have hlatest := transition_latestHeight (congrArg Prod.snd ht)
    rw [hbatch]
    rw [ht] at hlatest ⊢
    exact ⟨_, rfl, fun _ => congrArg Except.ok hlatest⟩

/-- What every transition keeps, a batch keeps, and it reports the height that
it has reached. -/
theorem applyBlockBatch_invariant {P : StateDB → Prop} (hP : P db)
    (hstep : ∀ db block, block ∈ blocks → P db → db.Extends c block →
      P (transition c (env block) db block).1)
    (h : applyBlockBatch c env db blocks = .ok (db', result)) :
    P db' ∧ ∀ height, result = .ok height → height = db'.getLatestHeight := by
  induction blocks generalizing db with
  | nil =>
    cases h
    exact ⟨hP, fun height he => (Except.ok.inj he).symm⟩
  | cons block rest ih =>
    have hrest : ∀ db b, b ∈ rest → P db → db.Extends c b → P (transition c (env b) db b).1 :=
      fun db b hb => hstep db b (List.mem_cons_of_mem _ hb)
    have hhead := hstep db block List.mem_cons_self hP
    have hturn := applyBlockBatch_turn c env db block rest
    rw [h] at hturn
    generalize hr : (Except.ok (db', result) : Except Panic _) = r at hturn
    cases hturn with
    | skipped _ => exact ih hP hrest hr.symm
    | rejected e _ =>
      cases hr
      exact ⟨hP, fun height he => by cases he⟩
    | orphaned _ => cases hr
    | failed hextends ht =>
      have hnext := hhead hextends
      cases hr
      rw [ht] at hnext
      exact ⟨hnext, fun height he => by cases he⟩
    | committed hextends ht =>
      have hnext := hhead hextends
      rw [ht] at hnext
      exact ih hnext hrest hr.symm

/-- The previous block is there at every turn, as each transition stores its
block at the latest height. -/
theorem applyBlockBatch_ne_panic (hrt : c.BlockRoundTrip)
    (hstored : (db.getBlockByHeight c db.getLatestHeight).isSome = true) (p : Panic) :
    applyBlockBatch c env db blocks ≠ .error p := by
  intro h
  induction blocks generalizing db with
  | nil => cases h
  | cons block rest ih =>
    have hturn := applyBlockBatch_turn c env db block rest
    rw [h] at hturn
    generalize hr : (Except.error p : Except _ (StateDB × Except SyncError UInt64)) = r at hturn
    cases hturn with
    | skipped _ => exact ih hstored hr.symm
    | rejected e _ => cases hr
    | orphaned hnone => simp [hnone] at hstored
    | failed _ _ => cases hr
    | committed _ ht =>
      have hnext := transition_stored hrt (congrArg Prod.snd ht)
      rw [ht] at hnext
      exact ih hnext hr.symm

end ChainSyncer

end AuraChain
