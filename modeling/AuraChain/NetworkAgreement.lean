import AuraChain.Network
import AuraChain.PrecommitHeld

/-! Agreement of the stores. A precommit rests on a quorum of prevotes, a prevote
names a header of the height at which it is signed, and an engine prevotes one
block for each height. -/

namespace AuraChain

open WeightedQuorum

namespace ConsensusEngine

/-- The key and the address of an engine stay. -/
def SameKey (engine engine' : ConsensusEngine) : Prop :=
  engine'.keypair = engine.keypair ∧ engine'.validatorAddress = engine.validatorAddress

variable {c : Crates} {env : Env} {engine engine' : ConsensusEngine} {vote : Vote}

theorem handlePrecommit_sameKey {r : Reply (Option QuorumCertificate)}
    (hr : engine.handlePrecommit c env vote = .ok r) : SameKey engine r.engine := by
  rcases handlePrecommit_cases hr with ⟨-, rfl⟩ | ⟨-, committed, hm, rfl⟩
  · exact ⟨rfl, rfl⟩
  · rcases commitMatching_cases hm with ⟨_, _, _, _, _, _, rfl⟩ | ⟨_, rfl⟩ <;> exact ⟨rfl, rfl⟩

theorem handlePrevote_sameKey {r : Reply (Option Vote)}
    (hr : engine.handlePrevote c env vote = .ok r) : SameKey engine r.engine := by
  rcases handlePrevote_cases hr with ⟨-, rfl⟩ | ⟨-, inner, hi, rfl⟩
  · exact ⟨rfl, rfl⟩
  · have hinner := handlePrecommit_sameKey hi
    exact hinner

theorem handleProposal_sameKey {block : Block} {r : Reply (Except ConsensusError Vote)}
    (hr : engine.handleProposal c env block = .ok r) : SameKey engine r.engine := by
  rcases handleProposal_cases hr with ⟨-, rfl⟩ | ⟨-, inner, hi, rfl⟩
  · exact ⟨rfl, rfl⟩
  · have hinner := handlePrevote_sameKey hi
    exact hinner

theorem next_sameKey {call : Call} {out : List Event}
    (hn : engine.next c call = some (engine', out)) : SameKey engine engine' := by
  cases next_returns hn with
  | createProposal hr =>
    rcases createProposal_cases hr with ⟨e, rfl⟩ | ⟨-, block, -, -, rfl⟩ <;> exact ⟨rfl, rfl⟩
  | handleProposal hr => exact handleProposal_sameKey hr
  | handlePrevote hr => exact handlePrevote_sameKey hr
  | handlePrecommit hr => exact handlePrecommit_sameKey hr
  | poolChanged mempool => exact ⟨rfl, rfl⟩

end ConsensusEngine

namespace Network

variable {ι : Type} {c : Crates} {V : List ValidatorInfo} {headers : Set BlockHeader}
  {genesis : GenesisConfig} {net net' : Network ι} {engine engine' : ConsensusEngine}
  {log out : List Event} {i : ι} {env : Env} {vote : Vote} {block : Block}

/-- What an engine may have signed: prevotes for headers of their own height, and
precommits that rest on a quorum of prevotes. -/
structure Justifies [Fintype ι] (c : Crates) (V : List ValidatorInfo) (headers : Set BlockHeader)
    (net : Network ι) (v : Vote) : Prop where
  prevote : v.voteType = .preVote →
    ∃ header ∈ headers, v.blockHash = header.headerHash c ∧ v.height = header.height
  precommit : v.voteType = .preCommit → net.Supported V v.blockHash

structure Member [Fintype ι] (c : Crates) (V : List ValidatorInfo) (headers : Set BlockHeader)
    (genesis : GenesisConfig) (net : Network ι) (engine : ConsensusEngine) (log : List Event) :
    Prop where
  identity : engine.validatorAddress = Address.fromPubkey c (c.verifyingKey engine.keypair)
  signed : ∀ v, Event.signed v ∈ log → net.Justifies c V headers v
  prevotes : net.Tallies engine.prevotes
  precommits : net.Tallies engine.precommits
  proposal : ∀ block, engine.proposedBlock = some block →
    block.header ∈ headers ∧ block.header.height = engine.currentHeight
  behind : engine.stateDb.getLatestHeight < engine.currentHeight
  filed : engine.stateDb.Filed c headers
  stored : ∀ height block, engine.stateDb.getBlockByHeight c height = some block →
    height = 0 ∧ block = genesis.toGenesisBlock c ∨ 0 < height ∧ net.Supported V (block.hash c)

theorem Later.justifies [Fintype ι] (h : Later net net') {v : Vote}
    (hv : net.Justifies c V headers v) : net'.Justifies c V headers v :=
  ⟨hv.prevote, fun ht => h.supported (hv.precommit ht)⟩

theorem Later.member [Fintype ι] (h : Later net net')
    (hm : net.Member c V headers genesis engine log) :
    net'.Member c V headers genesis engine log where
  identity := hm.identity
  signed v hv := h.justifies (hm.signed v hv)
  prevotes := h.tallies hm.prevotes
  precommits := h.tallies hm.precommits
  proposal := hm.proposal
  behind := hm.behind
  filed := hm.filed
  stored height block hb := (hm.stored height block hb).imp_right fun hs => ⟨hs.1, h.supported hs.2⟩

section Put

variable [DecidableEq ι]

theorem put_engines_self (net : Network ι) (i : ι) (engine : ConsensusEngine) (out : List Event) :
    (net.put i engine out).engines i = engine := Function.update_self ..

theorem put_logs_self (net : Network ι) (i : ι) (engine : ConsensusEngine) (out : List Event) :
    (net.put i engine out).logs i = net.logs i ++ out := Function.update_self ..

theorem put_engines_ne {j : ι} (h : j ≠ i) (net : Network ι) (engine : ConsensusEngine)
    (out : List Event) : (net.put i engine out).engines j = net.engines j :=
  Function.update_of_ne h ..

theorem put_logs_ne {j : ι} (h : j ≠ i) (net : Network ι) (engine : ConsensusEngine)
    (out : List Event) : (net.put i engine out).logs j = net.logs j :=
  Function.update_of_ne h ..

theorem put_put (net : Network ι) (i : ι) (engine engine' : ConsensusEngine) (out out' : List Event) :
    (net.put i engine out).put i engine' out' = net.put i engine' (out ++ out') := by
  simp [put, Function.update_idem]

theorem later_put (hidentity : engine.validatorAddress = (net.engines i).validatorAddress)
    (out : List Event) : Later net (net.put i engine out) where
  address j := by
    by_cases hj : j = i
    · subst hj
      rw [put_engines_self, hidentity]
    · rw [put_engines_ne hj]
  logged j e he := by
    by_cases hj : j = i
    · subst hj
      rw [put_logs_self]
      exact List.mem_append_left out he
    · rwa [put_logs_ne hj]

theorem Reachable.absent [Fintype ι] (hrun : Reachable c V headers net net') :
    net'.absent = net.absent := by
  induction hrun with
  | refl => rfl
  | tail _ hs ih =>
    obtain ⟨i, call, -, hd⟩ := hs
    obtain ⟨⟨engine', out⟩, hn, rfl⟩ := Option.map_eq_some_iff.mp hd
    have hlater := later_put (ConsensusEngine.next_sameKey hn).2 out
    rw [← ih]
    exact funext hlater.absent

end Put

/-- Every engine keeps to the rules, and no two have the same address. -/
structure Inv [Fintype ι] (c : Crates) (V : List ValidatorInfo) (headers : Set BlockHeader)
    (genesis : GenesisConfig) (net : Network ι) : Prop where
  distinct : Function.Injective fun i => (net.engines i).validatorAddress
  member : ∀ i, net.Member c V headers genesis (net.engines i) (net.logs i)

section Calls

variable [Fintype ι]

/-- A vote that the engine signs in the middle of a call is its own. -/
theorem Inv.authentic_own (h : net.Inv c V headers genesis)
    (hvalidator : vote.validator = (net.engines i).validatorAddress)
    (hsigned : Event.signed vote ∈ net.logs i) : net.Authentic vote := by
  intro j hj
  have heq : j = i := h.distinct (hj.trans hvalidator)
  exact heq ▸ hsigned

theorem Inv.supported (h : net.Inv c V headers genesis) {table : VoteTable}
    (htable : net.Tallies table) (hvote : net.Authentic vote)
    (hV : (net.engines i).getActiveValidators c = V)
    (hfits : (V.map ValidatorInfo.power).sum < 2 ^ 64)
    (hsees : (net.engines i).sees c (recordVote table vote) = true) :
    net.Supported V vote.blockHash := by
  rw [ConsensusEngine.sees, hV] at hsees
  exact htable.supported hvote (hV ▸ ConsensusEngine.getActiveValidators_nodup c _) hfits
    (fun j v hv ht => ((h.member j).signed v hv).precommit ht) hsees

variable [DecidableEq ι]

theorem Inv.put (h : net.Inv c V headers genesis)
    (hidentity : engine.validatorAddress = (net.engines i).validatorAddress)
    (hmember : (net.put i engine out).Member c V headers genesis engine (net.logs i ++ out)) :
    (net.put i engine out).Inv c V headers genesis := by
  have hlater := later_put hidentity out
  refine ⟨fun j k hjk => h.distinct ?_, fun j => ?_⟩
  · simpa only [hlater.address] using hjk
  · by_cases hj : j = i
    · subst hj
      rw [put_engines_self, put_logs_self]
      exact hmember
    · rw [put_engines_ne hj, put_logs_ne hj]
      exact hlater.member (h.member j)

/-- A change of the engine that logs nothing. -/
theorem Inv.keep (h : net.Inv c V headers genesis)
    (hidentity : engine.validatorAddress = (net.engines i).validatorAddress)
    (hmember : ∀ net', Later net net' → net'.Member c V headers genesis engine (net.logs i)) :
    (net.put i engine []).Inv c V headers genesis := by
  refine h.put hidentity ?_
  rw [List.append_nil]
  exact hmember _ (later_put hidentity [])

theorem lt_next {a b : UInt64} (h : a ≤ b) (hfits : b.toNat + 1 < 2 ^ 64) : a < b + 1 := by
  rw [UInt64.le_iff_toNat_le] at h
  rw [UInt64.lt_iff_toNat_lt, UInt64.toNat_add, UInt64.toNat_one, Nat.mod_eq_of_lt hfits]
  omega

omit [DecidableEq ι] in
theorem Member.committed (h : net.Member c V headers genesis engine log) (hrt : c.BlockRoundTrip)
    (hinj : Set.InjOn (BlockHeader.headerHash c) headers)
    (hproposal : engine.proposedBlock = some block) (hsupported : net.Supported V (block.hash c))
    {overlay : StateOverlay} {db : StateDB} {root : Hash}
    (hc : engine.stateDb.commitBlock c env block overlay = (db, .ok root)) :
    db.getLatestHeight = engine.currentHeight ∧ db.Filed c headers ∧
      ∀ height b, db.getBlockByHeight c height = some b →
        height = 0 ∧ b = genesis.toGenesisBlock c ∨ 0 < height ∧ net.Supported V (b.hash c) := by
  obtain ⟨hknown, hheight⟩ := h.proposal block hproposal
  have hlt : engine.stateDb.getLatestHeight < block.header.height := hheight ▸ h.behind
  have hok := congrArg Prod.snd hc
  have hdb := congrArg Prod.fst hc
  simp only [StateDB.commitBlock] at hok hdb
  obtain ⟨blockBytes, hs, hwritten⟩ := StateDB.writeBlock_ok hok
  rw [hdb] at hwritten
  have hd := congrArg (fun db : StateDB => db.kv.data) hwritten
  have hlatest := (StateDB.writeBlock_latest hrt hok).1
  rw [hdb, hheight] at hlatest
  refine ⟨hlatest, h.filed.written hrt hinj hknown (UInt64.le_of_lt hlt) hs hd, fun height b hb => ?_⟩
  rcases h.filed.read_written hrt hinj hknown hs hd hb with ⟨rfl, rfl⟩ | hold
  · exact .inr ⟨UInt64.lt_of_le_of_lt UInt64.zero_le hlt, hsupported⟩
  · exact h.stored height b hold

theorem Inv.handlePrecommit (h : net.Inv c V headers genesis) (hrt : c.BlockRoundTrip)
    (hinj : Set.InjOn (BlockHeader.headerHash c) headers)
    (hfits : (V.map ValidatorInfo.power).sum < 2 ^ 64) (hvote : net.Authentic vote)
    (hV : (net.engines i).getActiveValidators c = V)
    (hheight : (net.engines i).currentHeight.toNat + 1 < 2 ^ 64)
    {r : Reply (Option QuorumCertificate)}
    (hr : (net.engines i).handlePrecommit c env vote = .ok r) :
    (net.put i r.engine r.log).Inv c V headers genesis := by
  have hsame := ConsensusEngine.handlePrecommit_sameKey hr
  have hlater := later_put hsame.2 r.log
  have hm := hlater.member (h.member i)
  have hsigned : ∀ v, Event.signed v ∈ net.logs i ++ r.log →
      (net.put i r.engine r.log).Justifies c V headers v := by
    intro v hv
    rcases List.mem_append.mp hv with hv | hv
    · exact hm.signed v hv
    · exact absurd hv (ConsensusEngine.handlePrecommit_signs hr)
  refine h.put hsame.2 ?_
  rcases ConsensusEngine.handlePrecommit_cases hr with ⟨-, rfl⟩ | ⟨hq, committed, hc, rfl⟩
  · exact ⟨hm.identity, hsigned, hm.prevotes, hm.precommits.record (hlater.authentic hvote),
      hm.proposal, hm.behind, hm.filed, hm.stored⟩
  · have hsupported := hlater.supported (h.supported (h.member i).precommits hvote hV hfits
      (ConsensusEngine.sees_of_completesPrecommit hq))
    rcases ConsensusEngine.commitMatching_cases hc with
      ⟨block, db, root, hblock, hhash, hdb, rfl⟩ | ⟨-, rfl⟩
    · rw [← hhash] at hsupported
      obtain ⟨hlatest, hfiled, hstored⟩ := hm.committed hrt hinj hblock hsupported hdb
      refine ⟨hm.identity, hsigned, .empty _, .empty _, by simp [ConsensusEngine.advance], ?_,
        hfiled, hstored⟩
      exact lt_next (hlatest ▸ UInt64.le_refl _) hheight
    · exact ⟨hm.identity, hsigned, .empty _, .empty _, by simp [ConsensusEngine.advance],
        lt_next (UInt64.le_of_lt hm.behind) hheight, hm.filed, hm.stored⟩

omit [DecidableEq ι] in
theorem Member.signing (h : net.Member c V headers genesis engine log) (hlater : Later net net')
    (hjustified : net'.Justifies c V headers vote) (out : List Event)
    (hout : ∀ v, Event.signed v ∈ out → v = vote) :
    ∀ v, Event.signed v ∈ log ++ out → net'.Justifies c V headers v := by
  intro v hv
  rcases List.mem_append.mp hv with hv | hv
  · exact hlater.justifies (h.signed v hv)
  · exact hout v hv ▸ hjustified

theorem Inv.handlePrevote (h : net.Inv c V headers genesis) (hrt : c.BlockRoundTrip)
    (hinj : Set.InjOn (BlockHeader.headerHash c) headers)
    (hfits : (V.map ValidatorInfo.power).sum < 2 ^ 64) (hvote : net.Authentic vote)
    (hV : (net.engines i).getActiveValidators c = V)
    (hheight : (net.engines i).currentHeight.toNat + 1 < 2 ^ 64) {r : Reply (Option Vote)}
    (hr : (net.engines i).handlePrevote c env vote = .ok r) :
    (net.put i r.engine r.log).Inv c V headers genesis := by
  have hsame := ConsensusEngine.handlePrevote_sameKey hr
  rcases ConsensusEngine.handlePrevote_cases hr with ⟨-, rfl⟩ | ⟨hq, inner, hi, rfl⟩
  · refine h.keep hsame.2 fun net' hlater => ?_
    have hm := hlater.member (h.member i)
    exact ⟨hm.identity, hm.signed, hm.prevotes.record (hlater.authentic hvote), hm.precommits,
      hm.proposal, hm.behind, hm.filed, hm.stored⟩
  · generalize hown : (net.engines i).ownPrecommit c vote.blockHash = precommit at hi ⊢
    generalize hmid : ({ (net.engines i).recordPrevote vote with step := .preCommit } :
      ConsensusEngine) = mid at hi
    generalize hsaid : Event.prevoteQuorum (net.engines i).currentHeight
      (net.engines i).currentRound (countedVotes ((net.engines i).getActiveValidators c)
        (recordVote (net.engines i).prevotes vote)) = said
    have hidentity : mid.validatorAddress = (net.engines i).validatorAddress := by rw [← hmid]; rfl
    have hlater : Later net (net.put i mid [said, .signed precommit]) := later_put hidentity _
    have hm := hlater.member (h.member i)
    have hsupported := hlater.supported (h.supported (h.member i).prevotes hvote hV hfits
      (ConsensusEngine.sees_of_completesPrevote hq))
    have hfields : precommit.voteType = .preCommit ∧ precommit.blockHash = vote.blockHash := by
      rw [← hown]
      exact ⟨rfl, rfl⟩
    have hjustified : (net.put i mid [said, .signed precommit]).Justifies c V headers precommit := by
      refine ⟨fun ht => ?_, fun _ => hfields.2 ▸ hsupported⟩
      rw [hfields.1] at ht
      cases ht
    have hsigned := (h.member i).signing hlater hjustified [said, .signed precommit]
      (by simp [← hsaid])
    have hinv : (net.put i mid [said, .signed precommit]).Inv c V headers genesis := by
      refine h.put hidentity ?_
      rw [← hmid] at hlater hm hsigned ⊢
      exact ⟨hm.identity, hsigned, hm.prevotes.record (hlater.authentic hvote), hm.precommits,
        hm.proposal, hm.behind, hm.filed, hm.stored⟩
    have hauthentic : (net.put i mid [said, .signed precommit]).Authentic precommit := by
      refine hinv.authentic_own (i := i) ?_ ?_
      · rw [put_engines_self, hidentity, (h.member i).identity, ← hown]
        rfl
      · rw [put_logs_self]
        simp
    rw [← put_engines_self net i mid [said, .signed precommit]] at hi
    have hlast := hinv.handlePrecommit hrt hinj hfits hauthentic ?_ ?_ hi
    · rw [put_put] at hlast
      exact hlast
    · rw [put_engines_self, ← hmid]
      exact hV
    · rw [put_engines_self, ← hmid]
      exact hheight

theorem Inv.handleProposal (h : net.Inv c V headers genesis) (hrt : c.BlockRoundTrip)
    (hinj : Set.InjOn (BlockHeader.headerHash c) headers)
    (hfits : (V.map ValidatorInfo.power).sum < 2 ^ 64) (hknown : block.header ∈ headers)
    (hV : (net.engines i).getActiveValidators c = V)
    (hheight : (net.engines i).currentHeight.toNat + 1 < 2 ^ 64)
    {r : Reply (Except ConsensusError Vote)}
    (hr : (net.engines i).handleProposal c env block = .ok r) :
    (net.put i r.engine r.log).Inv c V headers genesis := by
  have hsame := ConsensusEngine.handleProposal_sameKey hr
  rcases ConsensusEngine.handleProposal_cases hr with ⟨-, rfl⟩ | ⟨ha, inner, hi, rfl⟩
  · exact h.keep hsame.2 fun net' hlater => hlater.member (h.member i)
  · have hblock : block.header.height = (net.engines i).currentHeight := (of_decide_eq_true ha).1
    generalize hown : (net.engines i).ownPrevote c (block.hash c) = prevote at hi ⊢
    generalize hmid : ({ net.engines i with proposedBlock := some block, step := .preVote } :
      ConsensusEngine) = mid at hi
    have hidentity : mid.validatorAddress = (net.engines i).validatorAddress := by rw [← hmid]
    have hlater : Later net (net.put i mid [.signed prevote]) := later_put hidentity _
    have hm := hlater.member (h.member i)
    have hfields : prevote.voteType = .preVote ∧ prevote.blockHash = block.header.headerHash c ∧
        prevote.height = (net.engines i).currentHeight := by
      rw [← hown]
      exact ⟨rfl, rfl, rfl⟩
    have hjustified : (net.put i mid [.signed prevote]).Justifies c V headers prevote := by
      refine ⟨fun _ => ⟨block.header, hknown, hfields.2.1, hfields.2.2.trans hblock.symm⟩,
        fun ht => ?_⟩
      rw [hfields.1] at ht
      cases ht
    have hsigned := (h.member i).signing hlater hjustified [.signed prevote] (by simp)
    have hinv : (net.put i mid [.signed prevote]).Inv c V headers genesis := by
      refine h.put hidentity ?_
      rw [← hmid] at hm hsigned ⊢
      refine ⟨hm.identity, hsigned, hm.prevotes, hm.precommits, fun b hb => ?_, hm.behind, hm.filed,
        hm.stored⟩
      rw [← Option.some.inj hb]
      exact ⟨hknown, hblock⟩
    have hauthentic : (net.put i mid [.signed prevote]).Authentic prevote := by
      refine hinv.authentic_own (i := i) ?_ ?_
      · rw [put_engines_self, hidentity, (h.member i).identity, ← hown]
        rfl
      · rw [put_logs_self]
        simp
    rw [← put_engines_self net i mid [.signed prevote]] at hi
    have hlast := hinv.handlePrevote hrt hinj hfits hauthentic ?_ ?_ hi
    · rw [put_put] at hlast
      exact hlast
    · rw [put_engines_self, ← hmid]
      exact hV
    · rw [put_engines_self, ← hmid]
      exact hheight

theorem Inv.deliver (h : net.Inv c V headers genesis) (hrt : c.BlockRoundTrip)
    (hinj : Set.InjOn (BlockHeader.headerHash c) headers)
    (hfits : (V.map ValidatorInfo.power).sum < 2 ^ 64) {call : Call}
    (hp : net.Permits c V headers i call) (hd : net.deliver c i call = some net') :
    net'.Inv c V headers genesis := by
  obtain ⟨⟨engine', out⟩, hn, rfl⟩ := Option.map_eq_some_iff.mp hd
  cases ConsensusEngine.next_returns hn with
  | createProposal hr =>
    rcases ConsensusEngine.createProposal_cases hr with ⟨e, rfl⟩ | ⟨-, made, hheight, -, rfl⟩
    · exact h.keep rfl fun net' hlater => hlater.member (h.member i)
    · refine h.keep rfl fun net' hlater => ?_
      have hm := hlater.member (h.member i)
      refine ⟨hm.identity, hm.signed, hm.prevotes, hm.precommits, fun b hb => ?_, hm.behind,
        hm.filed, hm.stored⟩
      rw [← Option.some.inj hb]
      exact ⟨hp.known _ made hr rfl, hheight⟩
  | handleProposal hr => exact h.handleProposal hrt hinj hfits hp.known hp.validators hp.height hr
  | handlePrevote hr => exact h.handlePrevote hrt hinj hfits hp.carried hp.validators hp.height hr
  | handlePrecommit hr => exact h.handlePrecommit hrt hinj hfits hp.carried hp.validators hp.height hr
  | poolChanged mempool =>
    refine h.keep rfl fun net' hlater => ?_
    have hm := hlater.member (h.member i)
    exact ⟨hm.identity, hm.signed, hm.prevotes, hm.precommits, hm.proposal, hm.behind, hm.filed,
      hm.stored⟩

omit [DecidableEq ι] in
theorem Member.advances (h : net.Member c V headers genesis engine log) (call : Call) :
    engine.advances c call := by
  have habove : ∀ block : Block, engine.proposedBlock = some block →
      engine.stateDb.Advances c block := by
    intro block hb
    exact .inl ((h.proposal block hb).2 ▸ h.behind)
  cases call with
  | createProposal env => trivial
  | handleProposal env block =>
    intro ha _ _ b hb _
    have hblock : block.header.height = engine.currentHeight := (of_decide_eq_true ha).1
    rw [← Option.some.inj hb]
    exact .inl (hblock ▸ h.behind)
  | handlePrevote env vote => exact fun _ _ b hb _ => habove b hb
  | handlePrecommit env vote => exact fun _ b hb _ => habove b hb
  | poolChanged mempool => trivial

/-- The rules, and one vote of each engine for each height and phase. -/
def Sound (c : Crates) (V : List ValidatorInfo) (headers : Set BlockHeader)
    (genesis : GenesisConfig) (net : Network ι) : Prop :=
  net.Inv c V headers genesis ∧ ∀ i, (net.engines i).VotesOnce c (net.logs i)

theorem Sound.step (h : net.Sound c V headers genesis) (hrt : c.BlockRoundTrip)
    (hinj : Set.InjOn (BlockHeader.headerHash c) headers)
    (hfits : (V.map ValidatorInfo.power).sum < 2 ^ 64) (hs : Step c V headers net net') :
    net'.Sound c V headers genesis ∧
      ∀ j, (net.engines j).stateDb.Grows c (net'.engines j).stateDb := by
  obtain ⟨i, call, hp, hd⟩ := hs
  have hinv := h.1.deliver hrt hinj hfits hp hd
  obtain ⟨⟨engine', out⟩, hn, rfl⟩ := Option.map_eq_some_iff.mp hd
  have hm := h.1.member i
  have hkeeps : (net.engines i).Keeps c headers := ⟨hm.filed, fun b hb => (hm.proposal b hb).1⟩
  have hgrows := (hkeeps.next hrt hinj hp.known (hm.advances call) hn).2
  refine ⟨⟨hinv, fun j => ?_⟩, fun j => ?_⟩
  · by_cases hj : j = i
    · subst hj
      rw [put_engines_self, put_logs_self]
      exact (h.2 j).call hp.height hp.keepsStep hn
    · rw [put_engines_ne hj, put_logs_ne hj]
      exact h.2 j
  · by_cases hj : j = i
    · subst hj
      rw [put_engines_self]
      exact hgrows
    · rw [put_engines_ne hj]
      exact .refl c _

theorem Sound.run (h : net.Sound c V headers genesis) (hrt : c.BlockRoundTrip)
    (hinj : Set.InjOn (BlockHeader.headerHash c) headers)
    (hfits : (V.map ValidatorInfo.power).sum < 2 ^ 64) (hrun : Reachable c V headers net net') :
    net'.Sound c V headers genesis ∧
      ∀ j, (net.engines j).stateDb.Grows c (net'.engines j).stateDb := by
  induction hrun with
  | refl => exact ⟨h, fun _ => .refl c _⟩
  | tail _ hs ih =>
    obtain ⟨hsound, hgrows⟩ := ih.1.step hrt hinj hfits hs
    exact ⟨hsound, fun j => (ih.2 j).trans (hgrows j)⟩

end Calls

section Spawn

variable {keypair : ι → SecretKey} {stateDb : ι → StateDB} {ioError : ι → Option StorageError}
  {mempool : ι → Mempool} {chainId : Bytes}

theorem genesis_read {db : StateDB} {e : Option StorageError} (hrt : c.BlockRoundTrip)
    (hempty : db.kv.data = ∅) {height : UInt64} {b : Block}
    (hb : (db.applyGenesis c e genesis).1.getBlockByHeight c height = some b) :
    height = 0 ∧ b = genesis.toGenesisBlock c := by
  have hstart : db.Filed c (Set.univ : Set BlockHeader) := .empty hempty
  have hnone : db.getBlockByHeight c height = none := by
    simp [StateDB.getBlockByHeight, KeyValueStore.get, hempty]
  cases hs : c.serializeBlock (genesis.toGenesisBlock c) with
  | none =>
    rw [StateDB.applyGenesis, StateDB.writeBlock_fst, hs] at hb
    exact absurd (hnone.symm.trans hb) (by simp)
  | some blockBytes =>
    have hd : (db.applyGenesis c e genesis).1.kv.data = StateDB.writtenData c db.kv.data
        (StateDB.genesisWrites c db genesis) ((genesis.toGenesisBlock c).hash c) 0 blockBytes := by
      rw [StateDB.applyGenesis, StateDB.writeBlock_fst, hs]
    by_cases hheight : (0 : UInt64) = height
    · subst hheight
      obtain ⟨-, hindex, hstored⟩ := StateDB.written_self hrt hs hd
      have hgenesis : (genesis.toGenesisBlock c).header.height = 0 := rfl
      rw [hgenesis] at hindex
      rw [StateDB.getBlockByHeight, KeyValueStore.get, hindex, Option.bind_some,
        KeyValueStore.get, hstored, Option.some.injEq] at hb
      exact ⟨rfl, hb.symm⟩
    · have hl : (db.applyGenesis c e genesis).1.kv.data[heightKey height]? = none := by
        rw [hd, StateDB.writtenData_height_ne hheight, hempty]
        simp
      simp [StateDB.getBlockByHeight, KeyValueStore.get, hl] at hb

theorem spawn_sound [Fintype ι] [DecidableEq ι] (hrt : c.BlockRoundTrip)
    (hinj : Set.InjOn (BlockHeader.headerHash c) headers)
    (hempty : ∀ i, (stateDb i).kv.data = ∅) (hknown : (genesis.toGenesisBlock c).header ∈ headers)
    (hkeys : Function.Injective fun i => Address.fromPubkey c (c.verifyingKey (keypair i))) :
    (spawn c genesis keypair stateDb ioError mempool chainId).Sound c V headers genesis := by
  refine ⟨⟨hkeys, fun i => ?_⟩, fun i => ?_⟩
  · have hlatest : ((stateDb i).applyGenesis c (ioError i) genesis).1.getLatestHeight = 0 := by
      rw [StateDB.applyGenesis, StateDB.writeBlock_getLatestHeight]
      split_ifs
      · rfl
      · simp [StateDB.getLatestHeight, KeyValueStore.get, hempty i]
    refine ⟨rfl, by simp [spawn], .empty _, .empty _, by simp [spawn, ConsensusEngine.new], ?_,
      .applyGenesis (hempty i) hrt hinj hknown, fun height b hb => .inl (genesis_read hrt (hempty i) hb)⟩
    simp only [spawn, ConsensusEngine.new, hlatest]
    decide
  · exact ⟨by simp [spawn], by simp [spawn, ConsensusEngine.hasSigned],
      by simp [spawn, ConsensusEngine.hasSigned], by simp [spawn, ConsensusEngine.hasSigned]⟩

end Spawn

/-- What the engine with the address has prevoted fixes the height. -/
theorem Inv.prevoted_height [Fintype ι] (h : net.Inv c V headers genesis)
    (hinj : Set.InjOn (BlockHeader.headerHash c) headers) {header : BlockHeader}
    (hknown : header ∈ headers) {address : Address}
    (hp : net.Prevoted address (header.headerHash c)) :
    ∃ i, (net.engines i).validatorAddress = address ∧
      ConsensusEngine.hasSigned (net.logs i) header.height .preVote (header.headerHash c) := by
  obtain ⟨i, vote, hi, hs, ht, hx⟩ := hp
  obtain ⟨header', hknown', hx', hheight⟩ := ((h.member i).signed vote hs).prevote ht
  have heq : header' = header := hinj hknown' hknown (hx'.symm.trans hx)
  exact ⟨i, hi, vote, hs, hheight.trans (congrArg BlockHeader.height heq), ht, hx⟩

/-- With faulty validators of at most a third of the power, no engine ever
stores a block at a height where another has stored one with another header. -/
theorem stores_agree [Fintype ι] [DecidableEq ι] (hrt : c.BlockRoundTrip)
    (hinj : Set.InjOn (BlockHeader.headerHash c) headers)
    (hfits : (V.map ValidatorInfo.power).sum < 2 ^ 64) {keypair : ι → SecretKey}
    {stateDb : ι → StateDB} {ioError : ι → Option StorageError} {mempool : ι → Mempool}
    {chainId : Bytes} (hempty : ∀ i, (stateDb i).kv.data = ∅)
    (hknown : (genesis.toGenesisBlock c).header ∈ headers)
    (hkeys : Function.Injective fun i => Address.fromPubkey c (c.verifyingKey (keypair i)))
    (hfaulty : 3 * weight ValidatorInfo.power V
      (spawn c genesis keypair stateDb ioError mempool chainId).absent ≤
        (V.map ValidatorInfo.power).sum)
    (hrun : Reachable c V headers (spawn c genesis keypair stateDb ioError mempool chainId) net)
    (hlater : Reachable c V headers net net') {i j : ι} {height : UInt64} {b b' : Block}
    (hb : (net.engines i).stateDb.getBlockByHeight c height = some b)
    (hb' : (net'.engines j).stateDb.getBlockByHeight c height = some b') : b.header = b'.header := by
  have hstart : (spawn c genesis keypair stateDb ioError mempool chainId).Sound c V headers genesis :=
    spawn_sound hrt hinj hempty hknown hkeys
  obtain ⟨hsound, -⟩ := hstart.run hrt hinj hfits hrun
  obtain ⟨⟨hinv, honce⟩, hgrows⟩ := hsound.run hrt hinj hfits hlater
  have hearlier := (hgrows i).kept height b hb
  obtain ⟨-, -, rfl, hheader⟩ := (hinv.member i).filed.indexed hearlier
  obtain ⟨-, -, hheight, hheader'⟩ := (hinv.member j).filed.indexed hb'
  rcases (hinv.member i).stored _ b hearlier with ⟨hzero, rfl⟩ | ⟨hpos, hs⟩
  · rcases (hinv.member j).stored _ b' hb' with ⟨-, rfl⟩ | ⟨hpos, -⟩
    · rfl
    · rw [hzero] at hpos
      exact absurd hpos (UInt64.lt_irrefl 0)
  · rcases (hinv.member j).stored _ b' hb' with ⟨hzero, -⟩ | ⟨-, hs'⟩
    · rw [hzero] at hpos
      exact absurd hpos (UInt64.lt_irrefl 0)
    · rw [← Reachable.absent (hrun.trans hlater)] at hfaulty
      obtain ⟨v, -, hv, hv', hpresent⟩ := exists_common _ hs hs' hfaulty
      have hp := (supports_iff.mp hv).resolve_left (by simp [hpresent])
      have hp' := (supports_iff.mp hv').resolve_left (by simp [hpresent])
      obtain ⟨k, hk, hsigned⟩ := hinv.prevoted_height hinj hheader hp
      obtain ⟨k', hk', hsigned'⟩ := hinv.prevoted_height hinj hheader' hp'
      have hsame : k = k' := hinv.distinct (hk.trans hk'.symm)
      subst hsame
      rw [hheight] at hsigned'
      exact hinj hheader hheader' ((honce k).once _ _ _ _ hsigned hsigned')

end Network

namespace NetworkAgreement

def genesis : GenesisConfig where
  chainId := ascii "aura-testnet"
  timestamp := 1700000000
  accounts := []
  validators := [⟨Reference.address 1, Reference.secretKey 1, 3⟩,
    ⟨Reference.address 2, Reference.secretKey 2, 1⟩]
  initialStateRoot := Hash.zero

def genesisBlock : Block := genesis.toGenesisBlock (Reference.crates [])

def proposal : Block := Reference.block 1 (genesisBlock.hash (Reference.crates [])) 1700000001 []

def crates : Crates := Reference.crates [genesisBlock, proposal]

def headers : List BlockHeader := [genesisBlock.header, proposal.header]

def keypair (i : Fin 2) : SecretKey := Reference.secretKey (if i = 0 then 1 else 2)

def stateDb (_ : Fin 2) : StateDB := StateDB.openInMemory crates

def mempool (_ : Fin 2) : Mempool := .new MempoolConfig.default

def start : Network (Fin 2) :=
  .spawn crates genesis keypair stateDb (fun _ => none) mempool (ascii "aura-testnet")

def V : List ValidatorInfo := (start.engines 0).getActiveValidators crates

def known (call : Call) : Bool :=
  match call with
  | .createProposal _ => false
  | .handleProposal _ block => decide (block.header ∈ headers)
  | _ => true

def carried (net : Network (Fin 2)) (vote : Vote) : Bool :=
  decide (∀ i, (net.engines i).validatorAddress = vote.validator → Event.signed vote ∈ net.logs i)

def permits (net : Network (Fin 2)) (i : Fin 2) (call : Call) : Bool :=
  (match call with
    | .handlePrevote _ vote => carried net vote
    | .handlePrecommit _ vote => carried net vote
    | _ => true) && decide ((net.engines i).keepsStep crates call) &&
  decide ((net.engines i).currentHeight.toNat + 1 < 2 ^ 64) && known call &&
  decide ((net.engines i).getActiveValidators crates = V)

theorem carried_iff (net : Network (Fin 2)) (vote : Vote) :
    carried net vote = true ↔ net.Authentic vote := decide_eq_true_iff

theorem permits_sound {net : Network (Fin 2)} {i : Fin 2} {call : Call}
    (h : permits net i call = true) : net.Permits crates V {h | h ∈ headers} i call := by
  simp only [permits, Bool.and_eq_true, decide_eq_true_eq] at h
  obtain ⟨⟨⟨⟨hcarried, hkeep⟩, hheight⟩, hknown⟩, hvalidators⟩ := h
  refine ⟨?_, hkeep, hheight, ?_, hvalidators⟩
  · cases call with
    | handlePrevote env vote => exact (carried_iff net vote).mp hcarried
    | handlePrecommit env vote => exact (carried_iff net vote).mp hcarried
    | _ => trivial
  · cases call with
    | createProposal env => cases hknown
    | handleProposal env block =>
      have hheader : block.header ∈ headers := of_decide_eq_true hknown
      exact hheader
    | _ => trivial

def run : Network (Fin 2) → List (Fin 2 × Call) → Option (Network (Fin 2))
  | net, [] => some net
  | net, (i, call) :: rest =>
    if permits net i call then (net.deliver crates i call).bind fun net' => run net' rest else none

theorem run_reachable {net net' : Network (Fin 2)} {calls : List (Fin 2 × Call)}
    (h : run net calls = some net') : Network.Reachable crates V {h | h ∈ headers} net net' := by
  induction calls generalizing net with
  | nil =>
    cases h
    exact .refl
  | cons head rest ih =>
    rw [run] at h
    split_ifs at h with hp
    obtain ⟨mid, hd, hrest⟩ := Option.bind_eq_some_iff.mp h
    exact .head ⟨head.1, head.2, permits_sound hp, hd⟩ (ih hrest)

/-- The first validator commits alone, the second when it sees the precommit of
the first. -/
def calls : List (Fin 2 × Call) :=
  [(0, .handleProposal Reference.env proposal), (1, .handleProposal Reference.env proposal),
    (1, .handlePrecommit Reference.env ((start.engines 0).ownPrecommit crates (proposal.hash crates)))]

theorem stores_agree_committed : ∃ net : Network (Fin 2),
    (net.engines 0).stateDb.getBlockByHeight crates 1 = some proposal ∧
    ∀ b, (net.engines 1).stateDb.getBlockByHeight crates 1 = some b → proposal.header = b.header := by
  have hcommits : (run start calls).map (fun net =>
      ((net.engines 0).stateDb.getBlockByHeight crates 1,
        (net.engines 1).stateDb.getBlockByHeight crates 1)) =
      some (some proposal, some proposal) := by decide +kernel
  obtain ⟨net, hrun, hpair⟩ := Option.map_eq_some_iff.mp hcommits
  obtain ⟨hfirst, -⟩ := Prod.mk.inj hpair
  have hinj : Set.InjOn (BlockHeader.headerHash crates) {h | h ∈ headers} := by
    have hlist : ∀ a ∈ headers, ∀ b ∈ headers,
        a.headerHash crates = b.headerHash crates → a = b := by decide +kernel
    exact fun a ha b hb => hlist a ha b hb
  have hfits : (V.map ValidatorInfo.power).sum < 2 ^ 64 := by decide +kernel
  have hknown : (genesis.toGenesisBlock crates).header ∈ headers := by decide +kernel
  have hkeys : Function.Injective
      fun i => Address.fromPubkey crates (crates.verifyingKey (keypair i)) := by decide +kernel
  have hfaulty : 3 * weight ValidatorInfo.power V start.absent ≤ (V.map ValidatorInfo.power).sum := by
    decide +kernel
  have hempty : ∀ i, (stateDb i).kv.data = ∅ := fun _ => rfl
  have hrt : crates.BlockRoundTrip := Reference.blockRoundTrip _
  have hreach := run_reachable hrun
  unfold start at hfaulty hreach
  refine ⟨net, hfirst, fun b hb => ?_⟩
  exact Network.stores_agree hrt hinj hfits hempty hknown hkeys hfaulty hreach .refl hfirst hb

end NetworkAgreement

end AuraChain
