import AuraChain.AccountableSafety
import AuraChain.PrecommitHeld
import AuraChain.Reference

/-! A round in which everybody votes. The votes for the proposal come one by one,
prevotes and precommits in any order; whatever the order, the engine commits the
proposal once. -/

namespace AuraChain

open WeightedQuorum

/-- The validators with these addresses make a quorum. -/
def QuorumOf (V : List ValidatorInfo) (as : List Address) : Prop :=
  2 * (V.map ValidatorInfo.power).sum < 3 * weight ValidatorInfo.power V (fun v => as.contains v.address)

section Quorum

variable {V : List ValidatorInfo} {as bs : List Address}

theorem QuorumOf.mono (h : QuorumOf V as) (hsub : ∀ a ∈ as, a ∈ bs) : QuorumOf V bs := by
  refine lt_of_lt_of_le h (Nat.mul_le_mul_left 3 (weight_mono _ fun v _ hv => ?_))
  exact List.contains_iff_mem.mpr (hsub _ (List.contains_iff_mem.mp hv))

theorem not_quorumOf_nil : ¬ QuorumOf V [] := by
  simp [QuorumOf, weight]

theorem QuorumOf.common (h : QuorumOf V as) (h' : QuorumOf V bs) : ∃ a ∈ as, a ∈ bs := by
  have hnone : 3 * weight ValidatorInfo.power V (fun _ => false) ≤ (V.map ValidatorInfo.power).sum := by
    simp [weight]
  obtain ⟨v, -, hv, hv', -⟩ := exists_common _ h h' hnone
  exact ⟨v.address, List.contains_iff_mem.mp hv, List.contains_iff_mem.mp hv'⟩

theorem isQuorum_iff {list : List Vote} (hV : (V.map ValidatorInfo.address).Nodup)
    (hfits : (V.map ValidatorInfo.power).sum < 2 ^ 64) (hlist : (list.map Vote.validator).Nodup) :
    isQuorum (totalPower V) (votePower V list) = true ↔ QuorumOf V (list.map Vote.validator) := by
  have hle := weight_le ValidatorInfo.power V fun v => decide (v.address ∈ list.map Vote.validator)
  simp only [isQuorum, decide_eq_true_iff, UInt64.lt_iff_toNat_lt, toNat_totalPower hfits,
    toNat_votePower hV hlist hfits, UInt64.toNat_zero, QuorumOf, List.contains_eq_mem]
  omega

end Quorum

def Event.isCertificate : Event → Bool
  | .precommitQuorum .. => true
  | _ => false

def certificates (log : List Event) : Nat := log.countP Event.isCertificate

theorem recordVote_fresh {table : VoteTable} {vote : Vote}
    (h : vote.validator ∉ (table.getD vote.blockHash []).map Vote.validator) :
    (recordVote table vote).map Vote.validator =
      (table.getD vote.blockHash []).map Vote.validator ++ [vote.validator] := by
  have hnot : hasVoted table vote = false := by
    rw [hasVoted, List.any_eq_false]
    intro v hv hsame
    exact h (List.mem_map.mpr ⟨v, hv, of_decide_eq_true hsame⟩)
  simp [recordVote, hnot]

namespace ConsensusEngine

/-- The round of `start` goes on: who has been heard, and no commit yet. -/
structure RoundOpen (c : Crates) (start : ConsensusEngine) (block : Block) (as bs : List Address)
    (engine : ConsensusEngine) (log : List Event) : Prop where
  height : engine.currentHeight = start.currentHeight
  keypair : engine.keypair = start.keypair
  stateDb : engine.stateDb = start.stateDb
  proposal : engine.proposedBlock = some block
  prevotes : (engine.prevotes.getD (block.hash c) []).map Vote.validator = as
  precommits : (engine.precommits.getD (block.hash c) []).map Vote.validator = bs
  step : engine.step ≠ .commit
  unseen : ¬ QuorumOf (start.getActiveValidators c) bs
  uncertified : certificates log = 0

/-- The proposal is committed; precommits that come late are counted anew. -/
structure RoundClosed (c : Crates) (start : ConsensusEngine) (block : Block) (late : List Address)
    (engine : ConsensusEngine) (log : List Event) : Prop where
  height : engine.currentHeight = start.currentHeight + 1
  validators : engine.getActiveValidators c = start.getActiveValidators c
  latest : engine.stateDb.getLatestHeight = block.header.height
  stored : engine.stateDb.getBlockByHeight c block.header.height = some block
  precommits : (engine.precommits.getD (block.hash c) []).map Vote.validator = late
  step : engine.step = .newRound
  certified : certificates log = 1

/-- The store takes the proposal, and the validators stay those of the round. -/
structure Committable (c : Crates) (start : ConsensusEngine) (block : Block) (env : Env) : Prop where
  stores : start.stateDb.commitFails c env block = false
  validators : ∀ db root, start.stateDb.commitBlock c env block (executeTransactionsSpeculative c
    start.stateDb block.transactions StateOverlay.new) = (db, .ok root) →
    getActiveValidators c { start with stateDb := db } = start.getActiveValidators c

section Calls

variable {c : Crates} {env : Env} {start engine : ConsensusEngine} {block : Block}
  {as bs late : List Address} {log : List Event} {vote : Vote}

theorem sees_iff (hfits : ((engine.getActiveValidators c).map ValidatorInfo.power).sum < 2 ^ 64)
    {list : List Vote} (hlist : (list.map Vote.validator).Nodup) :
    engine.sees c list = true ↔
      QuorumOf (engine.getActiveValidators c) (list.map Vote.validator) :=
  isQuorum_iff (getActiveValidators_nodup c engine) hfits hlist

theorem getActiveValidators_congr {e e' : ConsensusEngine} (h : e.stateDb = e'.stateDb) :
    e.getActiveValidators c = e'.getActiveValidators c := by
  rw [getActiveValidators, getActiveValidators, h]

theorem RoundOpen.completesPrecommit_iff (h : RoundOpen c start block as bs engine log)
    (hfits : ((start.getActiveValidators c).map ValidatorInfo.power).sum < 2 ^ 64)
    (hbs : bs.Nodup) (hhash : vote.blockHash = block.hash c) (hnew : vote.validator ∉ bs) :
    engine.completesPrecommit c vote = true ↔
      QuorumOf (start.getActiveValidators c) (bs ++ [vote.validator]) := by
  have hV := getActiveValidators_congr (c := c) h.stateDb
  have hlist : (recordVote engine.precommits vote).map Vote.validator = bs ++ [vote.validator] := by
    rw [recordVote_fresh (by rwa [hhash, h.precommits]), hhash, h.precommits]
  have hnodup : ((recordVote engine.precommits vote).map Vote.validator).Nodup := by
    rw [hlist, ← List.concat_eq_append]
    exact List.Nodup.concat hnew hbs
  rw [ConsensusEngine.completesPrecommit, Bool.and_eq_true, decide_eq_true_iff,
    sees_iff (hV ▸ hfits) hnodup, hlist, hV, and_iff_left h.step]

theorem RoundOpen.handlePrecommit (h : RoundOpen c start block as bs engine log)
    (hrt : c.BlockRoundTrip)
    (hfits : ((start.getActiveValidators c).map ValidatorInfo.power).sum < 2 ^ 64)
    (hcommittable : start.Committable c block env) (hbs : bs.Nodup)
    (hhash : vote.blockHash = block.hash c) (hnew : vote.validator ∉ bs) :
    ∃ r, engine.handlePrecommit c env vote = .ok r ∧
      (RoundOpen c start block as (bs ++ [vote.validator]) r.engine (log ++ r.log) ∧
          r.engine.step = engine.step ∨
        QuorumOf (start.getActiveValidators c) (bs ++ [vote.validator]) ∧
          RoundClosed c start block [] r.engine (log ++ r.log)) := by
  have hiff := h.completesPrecommit_iff hfits hbs hhash hnew
  have hreturns : ∃ r, engine.handlePrecommit c env vote = .ok r := by
    rw [handlePrecommit_ok_iff]
    rintro ⟨-, b, hb, -, hfails⟩
    rw [h.proposal, Option.some.injEq] at hb
    rw [← hb, h.stateDb, hcommittable.stores] at hfails
    cases hfails
  obtain ⟨r, hr⟩ := hreturns
  refine ⟨r, hr, ?_⟩
  rcases handlePrecommit_cases hr with ⟨hq, rfl⟩ | ⟨hq, committed, hm, rfl⟩
  · have hunseen : ¬ QuorumOf (start.getActiveValidators c) (bs ++ [vote.validator]) := by
      rw [← hiff, hq]
      exact Bool.false_ne_true
    refine .inl ⟨⟨h.height, h.keypair, h.stateDb, h.proposal, h.prevotes, ?_, h.step, hunseen, ?_⟩, rfl⟩
    · rw [recordPrecommit, OrdMap.getD_insert_ite, if_pos hhash,
        recordVote_fresh (by rwa [hhash, h.precommits]), hhash, h.precommits]
    · simpa [certificates, Event.isCertificate] using h.uncertified
  · refine .inr ⟨hiff.mp hq, ?_⟩
    rcases commitMatching_cases hm with ⟨b, db, root, hb, -, hc, rfl⟩ | ⟨hno, -⟩
    · have hblock : block = b := Option.some.inj (h.proposal.symm.trans hb)
      subst hblock
      have hdb : engine.stateDb.commitBlock c env block (executeTransactionsSpeculative c
          engine.stateDb block.transactions StateOverlay.new) = (db, .ok root) := hc
      rw [h.stateDb] at hdb
      have hlatest := StateDB.writeBlock_latest hrt (congrArg Prod.snd hdb)
      have hfst := congrArg Prod.fst hdb
      simp only [StateDB.commitBlock] at hfst
      rw [hfst] at hlatest
      refine ⟨?_, hcommittable.validators db root hdb, hlatest.1, hlatest.2, ?_, rfl, ?_⟩
      · simp only [ConsensusEngine.advance, recordPrecommit, h.height]
      · simp [ConsensusEngine.advance]
      · have hcount := h.uncertified
        simp only [certificates] at hcount ⊢
        simp [hcount, Event.isCertificate]
    · exact absurd hhash.symm (hno block h.proposal)

/-- The address in whose name the engine votes. -/
def ownAddress (c : Crates) (engine : ConsensusEngine) : Address :=
  Address.fromPubkey c (c.verifyingKey engine.keypair)

/-- Before its precommit the engine has not seen a quorum of prevotes. -/
def Phase (c : Crates) (start : ConsensusEngine) (as bs : List Address) (engine : ConsensusEngine) :
    Prop :=
  engine.step = .preVote ∧ ¬ QuorumOf (start.getActiveValidators c) as ∧ start.ownAddress c ∉ bs ∨
    engine.step = .preCommit ∧ start.ownAddress c ∈ bs

theorem RoundOpen.completesPrevote_iff (h : RoundOpen c start block as bs engine log)
    (hfits : ((start.getActiveValidators c).map ValidatorInfo.power).sum < 2 ^ 64)
    (has : as.Nodup) (hhash : vote.blockHash = block.hash c) (hnew : vote.validator ∉ as) :
    engine.completesPrevote c vote = true ↔
      QuorumOf (start.getActiveValidators c) (as ++ [vote.validator]) ∧ engine.step = .preVote := by
  have hV := getActiveValidators_congr (c := c) h.stateDb
  have hlist : (recordVote engine.prevotes vote).map Vote.validator = as ++ [vote.validator] := by
    rw [recordVote_fresh (by rwa [hhash, h.prevotes]), hhash, h.prevotes]
  have hnodup : ((recordVote engine.prevotes vote).map Vote.validator).Nodup := by
    rw [hlist, ← List.concat_eq_append]
    exact List.Nodup.concat hnew has
  rw [ConsensusEngine.completesPrevote, Bool.and_eq_true, decide_eq_true_iff,
    sees_iff (hV ▸ hfits) hnodup, hlist, hV]

theorem RoundOpen.recordPrevote (h : RoundOpen c start block as bs engine log)
    (hhash : vote.blockHash = block.hash c) (hnew : vote.validator ∉ as) :
    RoundOpen c start block (as ++ [vote.validator]) bs (engine.recordPrevote vote) log where
  height := h.height
  keypair := h.keypair
  stateDb := h.stateDb
  proposal := h.proposal
  prevotes := by
    rw [ConsensusEngine.recordPrevote, OrdMap.getD_insert_ite, if_pos hhash,
      recordVote_fresh (by rwa [hhash, h.prevotes]), hhash, h.prevotes]
  precommits := h.precommits
  step := h.step
  unseen := h.unseen
  uncertified := h.uncertified

theorem RoundOpen.handlePrevote (h : RoundOpen c start block as bs engine log)
    (hphase : Phase c start as bs engine) (hrt : c.BlockRoundTrip)
    (hfits : ((start.getActiveValidators c).map ValidatorInfo.power).sum < 2 ^ 64)
    (hcommittable : start.Committable c block env) (has : as.Nodup) (hbs : bs.Nodup)
    (hhash : vote.blockHash = block.hash c) (hnew : vote.validator ∉ as) :
    ∃ r, engine.handlePrevote c env vote = .ok r ∧
      ((∃ bs', (bs' = bs ∨ start.ownAddress c ∉ bs ∧ bs' = bs ++ [start.ownAddress c]) ∧
          RoundOpen c start block (as ++ [vote.validator]) bs' r.engine (log ++ r.log) ∧
          Phase c start (as ++ [vote.validator]) bs' r.engine) ∨
        QuorumOf (start.getActiveValidators c) (bs ++ [start.ownAddress c]) ∧
          RoundClosed c start block [] r.engine (log ++ r.log)) := by
  have hiff := h.completesPrevote_iff hfits has hhash hnew
  have hrecorded := h.recordPrevote hhash hnew
  cases hq : engine.completesPrevote c vote with
  | false =>
    refine ⟨⟨engine.recordPrevote vote, none, []⟩, by simp [ConsensusEngine.handlePrevote, hq], .inl ?_⟩
    rw [hq] at hiff
    refine ⟨bs, .inl rfl, by rw [List.append_nil]; exact hrecorded, ?_⟩
    rcases hphase with ⟨hstep, -, hown⟩ | ⟨hstep, hown⟩
    · exact .inl ⟨hstep, fun hquorum => absurd (hiff.mpr ⟨hquorum, hstep⟩) Bool.false_ne_true, hown⟩
    · exact .inr ⟨hstep, hown⟩
  | true =>
    obtain ⟨hquorum, hstep⟩ := hiff.mp hq
    obtain ⟨-, -, hown⟩ := hphase.resolve_right (by simp [hstep])
    have hmid : RoundOpen c start block (as ++ [vote.validator]) bs
        { engine.recordPrevote vote with step := .preCommit }
        (log ++ [.prevoteQuorum engine.currentHeight engine.currentRound
          (countedVotes (engine.getActiveValidators c) (recordVote engine.prevotes vote)),
          .signed (engine.ownPrecommit c vote.blockHash)]) := by
      refine ⟨hrecorded.height, hrecorded.keypair, hrecorded.stateDb, hrecorded.proposal,
        hrecorded.prevotes, hrecorded.precommits, by simp, h.unseen, ?_⟩
      have hcount := h.uncertified
      simp only [certificates] at hcount ⊢
      simp [hcount, Event.isCertificate]
    have hvalidator : (engine.ownPrecommit c vote.blockHash).validator = start.ownAddress c := by
      rw [ownAddress, ← h.keypair]
      rfl
    obtain ⟨inner, hi, hafter⟩ := hmid.handlePrecommit hrt hfits hcommittable hbs
      (show (engine.ownPrecommit c vote.blockHash).blockHash = block.hash c from hhash)
      (hvalidator ▸ hown)
    refine ⟨⟨inner.engine, some (engine.ownPrecommit c vote.blockHash),
      .prevoteQuorum engine.currentHeight engine.currentRound
        (countedVotes (engine.getActiveValidators c) (recordVote engine.prevotes vote)) ::
      .signed (engine.ownPrecommit c vote.blockHash) :: inner.log⟩, ?_, ?_⟩
    · simp only [ConsensusEngine.handlePrevote, hq, if_true, hi]
    · rw [List.append_assoc, hvalidator] at hafter
      rcases hafter with ⟨hopen, hkept⟩ | hclosed
      · exact .inl ⟨_, .inr ⟨hown, rfl⟩, hopen, .inr ⟨hkept, by simp⟩⟩
      · exact .inr hclosed

theorem RoundClosed.handlePrevote (h : RoundClosed c start block late engine log) (env : Env)
    (vote : Vote) :
    ∃ r, engine.handlePrevote c env vote = .ok r ∧
      RoundClosed c start block late r.engine (log ++ r.log) := by
  have hq : engine.completesPrevote c vote = false := by
    simp [ConsensusEngine.completesPrevote, h.step]
  refine ⟨⟨engine.recordPrevote vote, none, []⟩, by simp [ConsensusEngine.handlePrevote, hq], ?_⟩
  rw [List.append_nil]
  exact ⟨h.height, h.validators, h.latest, h.stored, h.precommits, h.step, h.certified⟩

theorem RoundClosed.handlePrecommit (h : RoundClosed c start block late engine log) (env : Env)
    (hfits : ((start.getActiveValidators c).map ValidatorInfo.power).sum < 2 ^ 64)
    (hlate : late.Nodup) (hhash : vote.blockHash = block.hash c) (hnew : vote.validator ∉ late)
    (hfew : ¬ QuorumOf (start.getActiveValidators c) (late ++ [vote.validator])) :
    ∃ r, engine.handlePrecommit c env vote = .ok r ∧
      RoundClosed c start block (late ++ [vote.validator]) r.engine (log ++ r.log) := by
  have hlist : (recordVote engine.precommits vote).map Vote.validator = late ++ [vote.validator] := by
    rw [recordVote_fresh (by rwa [hhash, h.precommits]), hhash, h.precommits]
  have hnodup : ((recordVote engine.precommits vote).map Vote.validator).Nodup := by
    rw [hlist, ← List.concat_eq_append]
    exact List.Nodup.concat hnew hlate
  have hq : engine.completesPrecommit c vote = false := by
    refine Bool.eq_false_of_not_eq_true fun hq => hfew ?_
    have hsees := (sees_iff (h.validators ▸ hfits) hnodup).mp (sees_of_completesPrecommit hq)
    rwa [hlist, h.validators] at hsees
  refine ⟨⟨engine.recordPrecommit vote, none, [.precommitGiven vote]⟩,
    by simp [ConsensusEngine.handlePrecommit, hq], ?_⟩
  refine ⟨h.height, h.validators, h.latest, h.stored, ?_, h.step, ?_⟩
  · rw [recordPrecommit, OrdMap.getD_insert_ite, if_pos hhash, ← hlist]
  · simpa [certificates, Event.isCertificate] using h.certified

end Calls

end ConsensusEngine

namespace RoundProgress

open ConsensusEngine

/-- The validators whose votes of the phase are delivered. -/
def heard (phase : VoteType) (calls : List Call) : List Address :=
  calls.filterMap fun
    | .handlePrevote _ vote => if phase = .preVote then some vote.validator else none
    | .handlePrecommit _ vote => if phase = .preCommit then some vote.validator else none
    | _ => none

def VotesFor (c : Crates) (start : ConsensusEngine) (block : Block) (call : Call) : Prop :=
  ∃ env vote, (call = .handlePrevote env vote ∨ call = .handlePrecommit env vote) ∧
    vote.blockHash = block.hash c ∧ start.Committable c block env

/-- Those in `P` have prevoted and those in `R` have precommitted, besides the
engine itself. Either the round is open, or those in `early` have closed it. -/
inductive Progress (c : Crates) (start : ConsensusEngine) (block : Block) (P R : List Address)
    (engine : ConsensusEngine) (log : List Event) : Prop
  | pending (bs : List Address) (h : RoundOpen c start block P bs engine log)
      (hphase : Phase c start P bs engine) (hbs : bs.Nodup) (hheard : ∀ a ∈ R, a ∈ bs)
      (hvoted : ∀ a ∈ bs, a ∈ start.ownAddress c :: R)
  | done (early late : List Address) (h : RoundClosed c start block late engine log)
      (hquorum : QuorumOf (start.getActiveValidators c) early) (hlate : late.Nodup)
      (hearly : ∀ a ∈ early, a ∈ start.ownAddress c :: R ∧ a ∉ late) (hheard : ∀ a ∈ late, a ∈ R)

variable {c : Crates} {env : Env} {start engine : ConsensusEngine} {block : Block}
  {P R : List Address} {log : List Event} {vote : Vote}

theorem Progress.handlePrevote (h : Progress c start block P R engine log) (hrt : c.BlockRoundTrip)
    (hfits : ((start.getActiveValidators c).map ValidatorInfo.power).sum < 2 ^ 64)
    (hcommittable : start.Committable c block env) (hP : P.Nodup)
    (hhash : vote.blockHash = block.hash c) (hnew : vote.validator ∉ P) :
    ∃ r, engine.handlePrevote c env vote = .ok r ∧
      Progress c start block (P ++ [vote.validator]) R r.engine (log ++ r.log) := by
  cases h with
  | pending bs h hphase hbs hheard hvoted =>
    obtain ⟨r, hr, ⟨bs', hbs', hopen, hphase'⟩ | ⟨hquorum, hclosed⟩⟩ :=
      h.handlePrevote hphase hrt hfits hcommittable hP hbs hhash hnew
    · refine ⟨r, hr, ?_⟩
      rcases hbs' with rfl | ⟨hown, rfl⟩
      · exact .pending bs' hopen hphase' hbs hheard hvoted
      · refine .pending _ hopen hphase' ?_ (fun a ha => List.mem_append_left _ (hheard a ha)) ?_
        · rw [← List.concat_eq_append]
          exact List.Nodup.concat hown hbs
        · intro a ha
          rcases List.mem_append.mp ha with ha | ha
          · exact hvoted a ha
          · rw [List.mem_singleton.mp ha]
            exact List.mem_cons_self
    · refine ⟨r, hr, .done _ [] hclosed hquorum List.nodup_nil (fun a ha => ⟨?_, by simp⟩) (by simp)⟩
      rcases List.mem_append.mp ha with ha | ha
      · exact hvoted a ha
      · rw [List.mem_singleton.mp ha]
        exact List.mem_cons_self
  | done early late h hquorum hlate hearly hheard =>
    obtain ⟨r, hr, hclosed⟩ := h.handlePrevote env vote
    exact ⟨r, hr, .done early late hclosed hquorum hlate hearly hheard⟩

theorem Progress.handlePrecommit (h : Progress c start block P R engine log)
    (hrt : c.BlockRoundTrip)
    (hfits : ((start.getActiveValidators c).map ValidatorInfo.power).sum < 2 ^ 64)
    (hcommittable : start.Committable c block env) (hhash : vote.blockHash = block.hash c)
    (hnew : vote.validator ∉ start.ownAddress c :: R) :
    ∃ r, engine.handlePrecommit c env vote = .ok r ∧
      Progress c start block P (R ++ [vote.validator]) r.engine (log ++ r.log) := by
  have hsub : ∀ {a}, a ∈ start.ownAddress c :: R →
      a ∈ start.ownAddress c :: (R ++ [vote.validator]) := by
    intro a ha
    rw [List.mem_cons] at ha ⊢
    exact ha.imp_right (List.mem_append_left _)
  have hlast : vote.validator ∈ start.ownAddress c :: (R ++ [vote.validator]) := by simp
  cases h with
  | pending bs h hphase hbs hheard hvoted =>
    have hfresh : vote.validator ∉ bs := fun hmem => hnew (hvoted _ hmem)
    have hall : ∀ a ∈ bs ++ [vote.validator], a ∈ start.ownAddress c :: (R ++ [vote.validator]) := by
      intro a ha
      rcases List.mem_append.mp ha with ha | ha
      · exact hsub (hvoted a ha)
      · rw [List.mem_singleton.mp ha]
        exact hlast
    obtain ⟨r, hr, ⟨hopen, hstep⟩ | ⟨hquorum, hclosed⟩⟩ :=
      h.handlePrecommit hrt hfits hcommittable hbs hhash hfresh
    · refine ⟨r, hr, .pending _ hopen ?_ ?_ ?_ hall⟩
      · rw [Phase, hstep]
        rcases hphase with ⟨hs, hfew, hown⟩ | ⟨hs, hown⟩
        · refine .inl ⟨hs, hfew, fun hmem => ?_⟩
          rcases List.mem_append.mp hmem with hmem | hmem
          · exact hown hmem
          · exact hnew (List.mem_singleton.mp hmem ▸ List.mem_cons_self)
        · exact .inr ⟨hs, List.mem_append_left _ hown⟩
      · rw [← List.concat_eq_append]
        exact List.Nodup.concat hfresh hbs
      · intro a ha
        rw [List.mem_append] at ha ⊢
        exact ha.imp_left (hheard a)
    · exact ⟨r, hr, .done _ [] hclosed hquorum List.nodup_nil
        (fun a ha => ⟨hall a ha, by simp⟩) (by simp)⟩
  | done early late h hquorum hlate hearly hheard =>
    have hfresh : vote.validator ∉ late :=
      fun hmem => hnew (List.mem_cons_of_mem _ (hheard _ hmem))
    have happart : ∀ a ∈ early, a ∉ late ++ [vote.validator] := by
      intro a ha hmem
      rcases List.mem_append.mp hmem with hmem | hmem
      · exact (hearly a ha).2 hmem
      · exact hnew (List.mem_singleton.mp hmem ▸ (hearly a ha).1)
    have hfew : ¬ QuorumOf (start.getActiveValidators c) (late ++ [vote.validator]) := by
      intro hsecond
      obtain ⟨a, ha, hmem⟩ := hquorum.common hsecond
      exact happart a ha hmem
    obtain ⟨r, hr, hclosed⟩ := h.handlePrecommit env hfits hlate hhash hfresh hfew
    refine ⟨r, hr, .done early _ hclosed hquorum ?_ (fun a ha => ⟨hsub (hearly a ha).1, happart a ha⟩)
      fun a ha => ?_⟩
    · rw [← List.concat_eq_append]
      exact List.Nodup.concat hfresh hlate
    · rw [List.mem_append] at ha ⊢
      exact ha.imp_left (hheard a)

theorem Progress.next (h : Progress c start block P R engine log) (hrt : c.BlockRoundTrip)
    (hfits : ((start.getActiveValidators c).map ValidatorInfo.power).sum < 2 ^ 64) {call : Call}
    (hcall : VotesFor c start block call) (hP : (P ++ heard .preVote [call]).Nodup)
    (hR : (start.ownAddress c :: (R ++ heard .preCommit [call])).Nodup) :
    ∃ engine' out, engine.next c call = some (engine', out) ∧
      Progress c start block (P ++ heard .preVote [call]) (R ++ heard .preCommit [call]) engine'
        (log ++ out) := by
  obtain ⟨env, vote, rfl | rfl, hhash, hcommittable⟩ := hcall
  · simp only [heard, List.filterMap_cons, List.filterMap_nil, if_true, reduceCtorEq, if_false,
      List.append_nil] at hP hR ⊢
    obtain ⟨hnodup, -, hdisjoint⟩ := List.nodup_append'.mp hP
    obtain ⟨r, hr, hprogress⟩ := h.handlePrevote hrt hfits hcommittable hnodup hhash
      fun hmem => hdisjoint hmem List.mem_cons_self
    exact ⟨r.engine, r.log, by simp [ConsensusEngine.next, Call.run, hr, Except.map, Except.toOption],
      hprogress⟩
  · simp only [heard, List.filterMap_cons, List.filterMap_nil, if_true, reduceCtorEq, if_false,
      List.append_nil] at hP hR ⊢
    rw [← List.cons_append] at hR
    obtain ⟨-, -, hdisjoint⟩ := List.nodup_append'.mp hR
    obtain ⟨r, hr, hprogress⟩ := h.handlePrecommit hrt hfits hcommittable hhash
      fun hmem => hdisjoint hmem List.mem_cons_self
    exact ⟨r.engine, r.log, by simp [ConsensusEngine.next, Call.run, hr, Except.map, Except.toOption],
      hprogress⟩

theorem heard_cons (phase : VoteType) (call : Call) (calls : List Call) :
    heard phase (call :: calls) = heard phase [call] ++ heard phase calls := by
  rw [heard, heard, heard, ← List.filterMap_append, List.singleton_append]

theorem Progress.run (h : Progress c start block P R engine log) (hrt : c.BlockRoundTrip)
    (hfits : ((start.getActiveValidators c).map ValidatorInfo.power).sum < 2 ^ 64)
    {calls : List Call} (hcalls : ∀ call ∈ calls, VotesFor c start block call)
    (hP : (P ++ heard .preVote calls).Nodup)
    (hR : (start.ownAddress c :: (R ++ heard .preCommit calls)).Nodup) :
    ∃ engine' out, runAll (ConsensusEngine.next c) (fun _ _ => True) engine calls =
        some (engine', out) ∧
      Progress c start block (P ++ heard .preVote calls) (R ++ heard .preCommit calls) engine'
        (log ++ out) := by
  induction calls generalizing P R engine log with
  | nil =>
    refine ⟨engine, [], rfl, ?_⟩
    simpa [heard] using h
  | cons call calls ih =>
    rw [heard_cons, ← List.append_assoc] at hP hR
    obtain ⟨mid, out, hn, hmid⟩ := h.next hrt hfits (hcalls call List.mem_cons_self)
      (List.Nodup.of_append_left hP)
      (show (start.ownAddress c :: (R ++ heard .preCommit [call]) ++ heard .preCommit calls).Nodup
        from hR).of_append_left
    obtain ⟨engine', rest, hrun, hlast⟩ := ih hmid
      (fun call' hc => hcalls call' (List.mem_cons_of_mem call hc)) hP hR
    refine ⟨engine', out ++ rest, ?_, ?_⟩
    · simp only [runAll, if_true, hn, hrun]
    · rw [heard_cons .preVote, heard_cons .preCommit, ← List.append_assoc, ← List.append_assoc,
        ← List.append_assoc]
      exact hlast

theorem Progress.closed (h : Progress c start block P R engine log)
    (hP : QuorumOf (start.getActiveValidators c) P)
    (hR : QuorumOf (start.getActiveValidators c) (start.ownAddress c :: R)) :
    ∃ late, RoundClosed c start block late engine log := by
  cases h with
  | pending bs h hphase hbs hheard hvoted =>
    rcases hphase with ⟨-, hfew, -⟩ | ⟨-, hown⟩
    · exact absurd hP hfew
    · refine absurd (hR.mono fun a ha => ?_) h.unseen
      rcases List.mem_cons.mp ha with rfl | ha
      · exact hown
      · exact hheard a ha
  | done early late h _ _ _ _ => exact ⟨late, h⟩

/-- In whatever order the votes of a round come in after its proposal, the
engine commits the proposal and gives out one certificate. -/
theorem round_commits_once (hrt : c.BlockRoundTrip)
    (hfits : ((start.getActiveValidators c).map ValidatorInfo.power).sum < 2 ^ 64)
    (hprevotes : start.prevotes = ∅) (hprecommits : start.precommits = ∅)
    (haccepts : start.accepts c block = true) (hcommittable : start.Committable c block env)
    {calls : List Call} (hcalls : ∀ call ∈ calls, VotesFor c start block call)
    (hP : (start.ownAddress c :: heard .preVote calls).Nodup)
    (hR : (start.ownAddress c :: heard .preCommit calls).Nodup)
    (hprevoted : QuorumOf (start.getActiveValidators c) (start.ownAddress c :: heard .preVote calls))
    (hprecommitted :
      QuorumOf (start.getActiveValidators c) (start.ownAddress c :: heard .preCommit calls)) :
    ∃ engine log, runAll (ConsensusEngine.next c) (fun _ _ => True) start
        (.handleProposal env block :: calls) = some (engine, log) ∧
      engine.currentHeight = start.currentHeight + 1 ∧
      engine.stateDb.getBlockByHeight c start.currentHeight = some block ∧ certificates log = 1 := by
  have hheight : block.header.height = start.currentHeight := (of_decide_eq_true haccepts).1
  have hopen : RoundOpen c start block [] []
      { start with proposedBlock := some block, step := .preVote }
      [.signed (start.ownPrevote c (block.hash c))] :=
    ⟨rfl, rfl, rfl, rfl, by simp [hprevotes], by simp [hprecommits], by simp, not_quorumOf_nil, rfl⟩
  have hphase : Phase c start [] [] { start with proposedBlock := some block, step := .preVote } :=
    .inl ⟨rfl, not_quorumOf_nil, by simp⟩
  have hstart : Progress c start block [] []
      { start with proposedBlock := some block, step := .preVote }
      [.signed (start.ownPrevote c (block.hash c))] :=
    .pending [] hopen hphase List.nodup_nil (by simp) (by simp)
  obtain ⟨inner, hi, hfirst⟩ := hstart.handlePrevote hrt hfits hcommittable List.nodup_nil
    (show (start.ownPrevote c (block.hash c)).blockHash = block.hash c from rfl) (by simp)
  obtain ⟨engine, out, hrun, hlast⟩ := hfirst.run hrt hfits hcalls hP hR
  obtain ⟨late, hclosed⟩ := hlast.closed hprevoted hprecommitted
  refine ⟨engine, _, ?_, hclosed.height, hheight ▸ hclosed.stored, hclosed.certified⟩
  have hn : start.next c (.handleProposal env block) =
      some (inner.engine, .signed (start.ownPrevote c (block.hash c)) :: inner.log) := by
    simp only [ConsensusEngine.next, Call.run, ConsensusEngine.handleProposal, haccepts, if_true, hi]
    rfl
  simp only [runAll, if_true, hn, hrun, List.singleton_append]

def genesisBlock : Block := Reference.genesisBlock [1, 2, 3, 4]

def proposal : Block := Reference.block 1 (genesisBlock.hash (Reference.crates [])) 1700000001 []

def crates : Crates := Reference.crates [genesisBlock, proposal]

def validator (k : UInt8) : ConsensusEngine :=
  Reference.engine [1, 2, 3, 4] k [genesisBlock, proposal]

def prevote (k : UInt8) : Call :=
  .handlePrevote Reference.env ((validator k).ownPrevote crates (proposal.hash crates))

def precommit (k : UInt8) : Call :=
  .handlePrecommit Reference.env ((validator k).ownPrecommit crates (proposal.hash crates))

def shuffled : List Call :=
  [precommit 3, precommit 2, prevote 4, prevote 2, precommit 4, prevote 3]

/-- Two precommits come before all prevotes, one after the commit. -/
theorem round_commits_once_shuffled : ∃ engine log,
    runAll (ConsensusEngine.next crates) (fun _ _ => True) (validator 1)
      (.handleProposal Reference.env proposal :: shuffled) = some (engine, log) ∧
    certificates log = 1 := by
  have hrt : crates.BlockRoundTrip := Reference.blockRoundTrip _
  have hcommittable : (validator 1).Committable crates proposal Reference.env := by
    refine ⟨by decide +kernel, fun db root hdb => ?_⟩
    have hfst := congrArg Prod.fst hdb
    dsimp only at hfst
    rw [← hfst]
    decide +kernel
  have hvotes : ∀ k, VotesFor crates (validator 1) proposal (prevote k) ∧
      VotesFor crates (validator 1) proposal (precommit k) :=
    fun k => ⟨⟨_, _, .inl rfl, rfl, hcommittable⟩, ⟨_, _, .inr rfl, rfl, hcommittable⟩⟩
  have hcalls : ∀ call ∈ shuffled, VotesFor crates (validator 1) proposal call := by
    simp [shuffled, hvotes]
  have hfits : (((validator 1).getActiveValidators crates).map ValidatorInfo.power).sum < 2 ^ 64 := by
    decide +kernel
  have haccepts : (validator 1).accepts crates proposal = true := by decide +kernel
  have hP : QuorumOf ((validator 1).getActiveValidators crates)
      ((validator 1).ownAddress crates :: heard .preVote shuffled) := by
    unfold QuorumOf
    decide +kernel
  have hR : QuorumOf ((validator 1).getActiveValidators crates)
      ((validator 1).ownAddress crates :: heard .preCommit shuffled) := by
    unfold QuorumOf
    decide +kernel
  obtain ⟨engine, log, hrun, -, -, hone⟩ := round_commits_once hrt hfits rfl rfl haccepts hcommittable
    hcalls (by decide +kernel) (by decide +kernel) hP hR
  exact ⟨engine, log, hrun, hone⟩

end RoundProgress

end AuraChain
