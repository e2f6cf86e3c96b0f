import AuraChain.Executor
import AuraChain.Mempool
import AuraChain.TracedRun

/-! Proposer election and the consensus engine. A call is a function of the
engine's cells; it fails where the source panics, and logs the votes it signs,
the precommits it is given and the quorums it sees. -/

namespace AuraChain

structure ValidatorInfo where
  address : Address
  pubkey : PublicKey
  votingPower : UInt64
  deriving DecidableEq

inductive ConsensusStep
  | newRound
  | propose
  | preVote
  | preCommit
  | commit
  deriving DecidableEq

inductive ConsensusError
  | notProposer (height : UInt64) (round : UInt32)
  | invalidProposal
  deriving DecidableEq

inductive Panic
  | previousBlockMustExist
  | blockCommitMustSucceed
  deriving DecidableEq

def totalPower (validators : List ValidatorInfo) : UInt64 :=
  UInt64.sum (validators.map ValidatorInfo.votingPower)

def proposerSeed (c : Crates) (height : UInt64) (round : UInt32) : UInt64 :=
  UInt64.fromBeBytes
    ((c.hashWithDomain domainProposerSeed (height.toBeBytes ++ round.toBeBytes)).bytes.take 8)

def pickProposer (targetPower : UInt64) : UInt64 → List ValidatorInfo → Option ValidatorInfo
  | _, [] => none
  | accumulated, val :: rest =>
    if targetPower < accumulated + val.votingPower then some val
    else pickProposer targetPower (accumulated + val.votingPower) rest

def selectProposer (c : Crates) (height : UInt64) (round : UInt32)
    (validators : List ValidatorInfo) : Option ValidatorInfo :=
  if validators.isEmpty then none
  else if totalPower validators = 0 then none
  else
    match pickProposer (proposerSeed c height round % totalPower validators) 0 validators with
    | some val => some val
    | none => validators.head?

abbrev VoteTable := OrdMap Hash (List Vote)

structure ConsensusEngine where
  keypair : SecretKey
  validatorAddress : Address
  stateDb : StateDB
  mempool : Mempool
  chainId : Bytes
  currentHeight : UInt64
  currentRound : UInt32
  step : ConsensusStep
  proposedBlock : Option Block
  prevotes : VoteTable
  precommits : VoteTable
  lastQc : Option QuorumCertificate

inductive Event
  | signed (vote : Vote)
  | precommitGiven (vote : Vote)
  | prevoteQuorum (height : UInt64) (round : UInt32) (counted : List Vote)
  | precommitQuorum (qc : QuorumCertificate) (counted : List Vote)
  deriving DecidableEq

structure Reply (α : Type) where
  engine : ConsensusEngine
  value : α
  log : List Event

def hasVoted (table : VoteTable) (vote : Vote) : Bool :=
  (table.getD vote.blockHash []).any fun v => v.validator = vote.validator

def recordVote (table : VoteTable) (vote : Vote) : List Vote :=
  let list := table.getD vote.blockHash []
  if hasVoted table vote then list else list ++ [vote]

def findValidator (validators : List ValidatorInfo) (vote : Vote) : Option ValidatorInfo :=
  validators.find? fun val => val.address = vote.validator

def votePower (validators : List ValidatorInfo) (list : List Vote) : UInt64 :=
  UInt64.sum ((list.filterMap (findValidator validators)).map ValidatorInfo.votingPower)

def countedVotes (validators : List ValidatorInfo) (list : List Vote) : List Vote :=
  list.filter fun vote => (findValidator validators vote).isSome

/-- The products are compared in 128 bits, where they do not overflow. -/
def isQuorum (totalPower votePower : UInt64) : Bool :=
  decide (0 < totalPower ∧ 2 * totalPower.toNat < 3 * votePower.toNat)

namespace ConsensusEngine

def new (c : Crates) (keypair : SecretKey) (stateDb : StateDB) (mempool : Mempool)
    (chainId : Bytes) : ConsensusEngine where
  keypair := keypair
  validatorAddress := Address.fromPubkey c (c.verifyingKey keypair)
  stateDb := stateDb
  mempool := mempool
  chainId := chainId
  currentHeight := stateDb.getLatestHeight + 1
  currentRound := 0
  step := .newRound
  proposedBlock := none
  prevotes := ∅
  precommits := ∅
  lastQc := none

def validatorInfo (p : Address × Account) : Option ValidatorInfo :=
  p.2.validatorPubkey.map fun pk => ⟨p.1, pk, p.2.stakedAmount⟩

def getActiveValidators (c : Crates) (engine : ConsensusEngine) : List ValidatorInfo :=
  (engine.stateDb.getValidators c).filterMap validatorInfo

def isProposer (c : Crates) (engine : ConsensusEngine) (height : UInt64) (round : UInt32) : Bool :=
  match selectProposer c height round (engine.getActiveValidators c) with
  | some proposer => decide (proposer.address = engine.validatorAddress)
  | none => false

def validatorSetHash (c : Crates) (validators : List ValidatorInfo) : Hash :=
  c.hashBytes (validators.flatMap fun v =>
    v.address.bytes ++ v.pubkey.bytes ++ v.votingPower.toBeBytes)

def proposalHeader (c : Crates) (env : Env) (engine : ConsensusEngine) (prevBlock : Block)
    (txs : List Transaction) : BlockHeader where
  version := 1
  chainId := engine.chainId
  height := engine.currentHeight
  round := engine.currentRound
  prevHash := prevBlock.hash c
  merkleRoot := (MerkleTree.fromLeafHashes c (txs.map (Transaction.txHash c))).root
  stateRoot := engine.stateDb.getStateRoot c
  validatorSetHash := validatorSetHash c (engine.getActiveValidators c)
  timestamp := env.now
  proposer := engine.validatorAddress
  signature := FixedBytes.zero 64

/-- The speculative execution has no effect: the header's state root is that of
the store. -/
def createProposal (c : Crates) (env : Env) (engine : ConsensusEngine) :
    Except Panic (Reply (Except ConsensusError Block)) :=
  let refused := ConsensusError.notProposer engine.currentHeight engine.currentRound
  match selectProposer c engine.currentHeight engine.currentRound (engine.getActiveValidators c) with
  | none => .ok ⟨engine, .error refused, []⟩
  | some proposer =>
    if proposer.address ≠ engine.validatorAddress then .ok ⟨engine, .error refused, []⟩
    else match engine.stateDb.getBlockByHeight c (engine.currentHeight - 1) with
      | none => .error .previousBlockMustExist
      | some prevBlock =>
        let txs := engine.mempool.harvest (1024 * 1024)
        match (engine.proposalHeader c env prevBlock txs).sign c engine.keypair with
        | .error _ => .ok ⟨engine, .error .invalidProposal, []⟩
        | .ok header =>
          let block : Block := ⟨header, txs, engine.lastQc⟩
          .ok ⟨{ engine with proposedBlock := some block, step := .propose }, .ok block, []⟩

def commitProposal (c : Crates) (env : Env) (engine : ConsensusEngine) (block : Block) :
    Except Panic ConsensusEngine :=
  let overlay := executeTransactionsSpeculative c engine.stateDb block.transactions StateOverlay.new
  match engine.stateDb.commitBlock c env block overlay with
  | (_, .error _) => .error .blockCommitMustSucceed
  | (db, .ok _) => .ok { engine with
      stateDb := db
      mempool := engine.mempool.removeCommitted c block.transactions }

def commitMatching (c : Crates) (env : Env) (engine : ConsensusEngine) (blockHash : Hash) :
    Except Panic ConsensusEngine :=
  match engine.proposedBlock with
  | some block => if block.hash c = blockHash then engine.commitProposal c env block else .ok engine
  | none => .ok engine

def certificate (c : Crates) (engine : ConsensusEngine) (vote : Vote) (votes : List Vote) :
    QuorumCertificate where
  blockHash := vote.blockHash
  height := engine.currentHeight
  round := engine.currentRound
  votes := votes
  totalVotingPower := totalPower (engine.getActiveValidators c)
  signersVotingPower := votePower (engine.getActiveValidators c) votes

def advance (engine : ConsensusEngine) (qc : QuorumCertificate) : ConsensusEngine :=
  { engine with
    lastQc := some qc
    currentHeight := engine.currentHeight + 1
    currentRound := 0
    step := .newRound
    proposedBlock := none
    prevotes := ∅
    precommits := ∅ }

def sees (c : Crates) (engine : ConsensusEngine) (votes : List Vote) : Bool :=
  isQuorum (totalPower (engine.getActiveValidators c))
    (votePower (engine.getActiveValidators c) votes)

def recordPrecommit (engine : ConsensusEngine) (vote : Vote) : ConsensusEngine :=
  { engine with
    precommits := engine.precommits.insert vote.blockHash (recordVote engine.precommits vote) }

def recordPrevote (engine : ConsensusEngine) (vote : Vote) : ConsensusEngine :=
  { engine with prevotes := engine.prevotes.insert vote.blockHash (recordVote engine.prevotes vote) }

def completesPrecommit (c : Crates) (engine : ConsensusEngine) (vote : Vote) : Bool :=
  engine.sees c (recordVote engine.precommits vote) && decide (engine.step ≠ .commit)

def completesPrevote (c : Crates) (engine : ConsensusEngine) (vote : Vote) : Bool :=
  engine.sees c (recordVote engine.prevotes vote) && decide (engine.step = .preVote)

def handlePrecommit (c : Crates) (env : Env) (engine : ConsensusEngine) (vote : Vote) :
    Except Panic (Reply (Option QuorumCertificate)) :=
  let list := recordVote engine.precommits vote
  let recorded := engine.recordPrecommit vote
  if engine.completesPrecommit c vote then
    let qc := engine.certificate c vote list
    match commitMatching c env { recorded with step := .commit } vote.blockHash with
    | .error p => .error p
    | .ok committed =>
      .ok ⟨committed.advance qc, some qc, [.precommitGiven vote,
        .precommitQuorum qc (countedVotes (engine.getActiveValidators c) list)]⟩
  else .ok ⟨recorded, none, [.precommitGiven vote]⟩

def ownPrecommit (c : Crates) (engine : ConsensusEngine) (blockHash : Hash) : Vote :=
  Vote.newSigned c blockHash engine.currentHeight engine.currentRound .preCommit engine.keypair

def ownPrevote (c : Crates) (engine : ConsensusEngine) (blockHash : Hash) : Vote :=
  Vote.newSigned c blockHash engine.currentHeight engine.currentRound .preVote engine.keypair

def handlePrevote (c : Crates) (env : Env) (engine : ConsensusEngine) (vote : Vote) :
    Except Panic (Reply (Option Vote)) :=
  let list := recordVote engine.prevotes vote
  let recorded := engine.recordPrevote vote
  if engine.completesPrevote c vote then
    let precommit := engine.ownPrecommit c vote.blockHash
    match handlePrecommit c env { recorded with step := .preCommit } precommit with
    | .error p => .error p
    | .ok r =>
      .ok ⟨r.engine, some precommit,
        .prevoteQuorum engine.currentHeight engine.currentRound
          (countedVotes (engine.getActiveValidators c) list) :: .signed precommit :: r.log⟩
  else .ok ⟨recorded, none, []⟩

def accepts (c : Crates) (engine : ConsensusEngine) (block : Block) : Bool :=
  decide (block.header.height = engine.currentHeight ∧ block.header.round = engine.currentRound ∧
    block.validateBasic c = .ok ())

def handleProposal (c : Crates) (env : Env) (engine : ConsensusEngine) (block : Block) :
    Except Panic (Reply (Except ConsensusError Vote)) :=
  if engine.accepts c block then
    let vote := engine.ownPrevote c (block.hash c)
    match handlePrevote c env { engine with proposedBlock := some block, step := .preVote } vote with
    | .error p => .error p
    | .ok r => .ok ⟨r.engine, .ok vote, .signed vote :: r.log⟩
  else .ok ⟨engine, .error .invalidProposal, []⟩

end ConsensusEngine

/-- A call of the engine, or a change that others make to its shared pool. -/
inductive Call
  | createProposal (env : Env)
  | handleProposal (env : Env) (block : Block)
  | handlePrevote (env : Env) (vote : Vote)
  | handlePrecommit (env : Env) (vote : Vote)
  | poolChanged (mempool : Mempool)

def Call.run (c : Crates) (engine : ConsensusEngine) :
    Call → Except Panic (ConsensusEngine × List Event)
  | .createProposal env => (engine.createProposal c env).map fun r => (r.engine, r.log)
  | .handleProposal env block => (engine.handleProposal c env block).map fun r => (r.engine, r.log)
  | .handlePrevote env vote => (engine.handlePrevote c env vote).map fun r => (r.engine, r.log)
  | .handlePrecommit env vote => (engine.handlePrecommit c env vote).map fun r => (r.engine, r.log)
  | .poolChanged mempool => .ok ({ engine with mempool := mempool }, [])

/-- A panic ends the run. -/
def ConsensusEngine.next (c : Crates) (engine : ConsensusEngine) (call : Call) :
    Option (ConsensusEngine × List Event) := (call.run c engine).toOption

abbrev EngineRun (c : Crates) (allowed : ConsensusEngine → Call → Prop) :=
  TracedRun (ConsensusEngine.next c) allowed

end AuraChain
