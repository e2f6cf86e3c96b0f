import AuraChain.AccountableSafety
import AuraChain.Equivocation
import AuraChain.StoreFinality

/-! Engines that exchange votes. No handler looks at who has sent a vote, at its
phase or at its height: a table counts what was given for a hash, and all that
ties a vote to an engine is that the engine has signed it. -/

namespace AuraChain

open WeightedQuorum

/-- The engines, each with all that it has logged. -/
structure Network (ι : Type) where
  engines : ι → ConsensusEngine
  logs : ι → List Event

namespace Network

variable {ι : Type}

/-- A vote in the name of an engine is one that the engine has signed. Validators
that run no engine here may have sent anything. -/
def Authentic (net : Network ι) (vote : Vote) : Prop :=
  ∀ i, (net.engines i).validatorAddress = vote.validator → Event.signed vote ∈ net.logs i

def carries (net : Network ι) : Call → Prop
  | .handlePrevote _ vote => net.Authentic vote
  | .handlePrecommit _ vote => net.Authentic vote
  | _ => True

/-- A call that an engine may be given: proposals do not reopen its step, blocks
are those of the headers, and the validators are the same for all engines. -/
structure Permits (c : Crates) (V : List ValidatorInfo) (headers : Set BlockHeader)
    (net : Network ι) (i : ι) (call : Call) : Prop where
  carried : net.carries call
  keepsStep : (net.engines i).keepsStep c call
  height : (net.engines i).currentHeight.toNat + 1 < 2 ^ 64
  known : (net.engines i).knows c headers call
  validators : (net.engines i).getActiveValidators c = V

section Step

variable [DecidableEq ι]

def put (net : Network ι) (i : ι) (engine : ConsensusEngine) (out : List Event) : Network ι where
  engines := Function.update net.engines i engine
  logs := Function.update net.logs i (net.logs i ++ out)

def deliver (c : Crates) (net : Network ι) (i : ι) (call : Call) : Option (Network ι) :=
  ((net.engines i).next c call).map fun r => net.put i r.1 r.2

def Step (c : Crates) (V : List ValidatorInfo) (headers : Set BlockHeader)
    (net net' : Network ι) : Prop :=
  ∃ i call, net.Permits c V headers i call ∧ net.deliver c i call = some net'

abbrev Reachable (c : Crates) (V : List ValidatorInfo) (headers : Set BlockHeader) :
    Network ι → Network ι → Prop :=
  Relation.ReflTransGen (Step c V headers)

end Step

/-- Each engine starts over a store of its own with the same genesis. -/
def spawn (c : Crates) (genesis : GenesisConfig) (keypair : ι → SecretKey) (stateDb : ι → StateDB)
    (ioError : ι → Option StorageError) (mempool : ι → Mempool) (chainId : Bytes) : Network ι where
  engines i := ConsensusEngine.new c (keypair i) ((stateDb i).applyGenesis c (ioError i) genesis).1
    (mempool i) chainId
  logs _ := []

/-- What has been signed in a network is still signed in a later one. -/
structure Later (net net' : Network ι) : Prop where
  address : ∀ i, (net'.engines i).validatorAddress = (net.engines i).validatorAddress
  logged : ∀ i e, e ∈ net.logs i → e ∈ net'.logs i

def Prevoted (net : Network ι) (address : Address) (hash : Hash) : Prop :=
  ∃ i vote, (net.engines i).validatorAddress = address ∧ Event.signed vote ∈ net.logs i ∧
    vote.voteType = .preVote ∧ vote.blockHash = hash

def absent [Fintype ι] (net : Network ι) (v : ValidatorInfo) : Bool :=
  decide (∀ i, (net.engines i).validatorAddress ≠ v.address)

open Classical in
noncomputable def supports [Fintype ι] (net : Network ι) (hash : Hash) (v : ValidatorInfo) : Bool :=
  net.absent v || decide (net.Prevoted v.address hash)

/-- The engines that have prevoted the hash make a quorum with the validators
that run no engine. -/
def Supported [Fintype ι] (V : List ValidatorInfo) (net : Network ι) (hash : Hash) : Prop :=
  2 * (V.map ValidatorInfo.power).sum < 3 * weight ValidatorInfo.power V (net.supports hash)

structure Tallies (net : Network ι) (table : VoteTable) : Prop where
  hash : ∀ (x : Hash) (v : Vote), v ∈ table.getD x [] → v.blockHash = x
  authentic : ∀ (x : Hash) (v : Vote), v ∈ table.getD x [] → net.Authentic v
  distinct : ∀ x : Hash, ((table.getD x []).map Vote.validator).Nodup

variable {net net' : Network ι} {table : VoteTable}

theorem supports_iff [Fintype ι] {hash : Hash} {v : ValidatorInfo} :
    net.supports hash v = true ↔ net.absent v = true ∨ net.Prevoted v.address hash := by
  simp [supports]

theorem Later.authentic (h : Later net net') {vote : Vote} (hv : net.Authentic vote) :
    net'.Authentic vote := by
  intro i hi
  rw [h.address] at hi
  exact h.logged i _ (hv i hi)

theorem Later.prevoted (h : Later net net') {address : Address} {hash : Hash}
    (hp : net.Prevoted address hash) : net'.Prevoted address hash := by
  obtain ⟨i, vote, hi, hs, ht, hx⟩ := hp
  exact ⟨i, vote, (h.address i).trans hi, h.logged i _ hs, ht, hx⟩

theorem Later.absent [Fintype ι] (h : Later net net') (v : ValidatorInfo) :
    net'.absent v = net.absent v := by
  simp only [Network.absent, h.address]

theorem Later.supported [Fintype ι] (h : Later net net') {V : List ValidatorInfo} {hash : Hash}
    (hs : net.Supported V hash) : net'.Supported V hash := by
  refine lt_of_lt_of_le hs (Nat.mul_le_mul_left 3 (weight_mono _ fun v _ hv => ?_))
  rw [supports_iff] at hv ⊢
  rw [h.absent]
  exact hv.imp_right h.prevoted

theorem Later.tallies (h : Later net net') {table : VoteTable} (ht : net.Tallies table) :
    net'.Tallies table :=
  ⟨ht.hash, fun x v hv => h.authentic (ht.authentic x v hv), ht.distinct⟩

theorem Tallies.empty (net : Network ι) : net.Tallies ∅ where
  hash x v hv := by simp at hv
  authentic x v hv := by simp at hv
  distinct x := by simp

theorem Tallies.mem (h : net.Tallies table) {vote v : Vote} (hvote : net.Authentic vote)
    (hv : v ∈ recordVote table vote) : v.blockHash = vote.blockHash ∧ net.Authentic v := by
  rcases mem_recordVote hv with hv | ⟨rfl, -⟩
  · exact ⟨h.hash _ v hv, h.authentic _ v hv⟩
  · exact ⟨rfl, hvote⟩

theorem Tallies.record (h : net.Tallies table) {vote : Vote} (hvote : net.Authentic vote) :
    net.Tallies (table.insert vote.blockHash (recordVote table vote)) where
  hash x v hv := by
    rw [OrdMap.getD_insert_ite] at hv
    split_ifs at hv with hx
    · exact (h.mem hvote hv).1.trans hx
    · exact h.hash x v hv
  authentic x v hv := by
    rw [OrdMap.getD_insert_ite] at hv
    split_ifs at hv with hx
    · exact (h.mem hvote hv).2
    · exact h.authentic x v hv
  distinct x := by
    rw [OrdMap.getD_insert_ite]
    split_ifs with hx
    · exact recordVote_nodup (h.distinct _)
    · exact h.distinct x

/-- The votes of a quorum are prevotes, unless one of them is a precommit that
already rests on such a quorum. -/
theorem Tallies.supported [Fintype ι] {V : List ValidatorInfo} (h : net.Tallies table) {vote : Vote}
    (hvote : net.Authentic vote) (hV : (V.map ValidatorInfo.address).Nodup)
    (hfits : (V.map ValidatorInfo.power).sum < 2 ^ 64)
    (hsigned : ∀ i v, Event.signed v ∈ net.logs i → v.voteType = .preCommit →
      net.Supported V v.blockHash)
    (hquorum : isQuorum (totalPower V) (votePower V (recordVote table vote)) = true) :
    net.Supported V vote.blockHash := by
  by_cases hfirst : ∃ i v, Event.signed v ∈ net.logs i ∧ v.voteType = .preCommit ∧
      v.blockHash = vote.blockHash
  · obtain ⟨i, v, hv, ht, hx⟩ := hfirst
    exact hx ▸ hsigned i v hv ht
  · have hq := (of_decide_eq_true hquorum).2
    rw [toNat_totalPower hfits, toNat_votePower hV (recordVote_nodup (h.distinct _)) hfits] at hq
    refine lt_of_lt_of_le hq (Nat.mul_le_mul_left 3 (weight_mono _ fun v _ hv => ?_))
    obtain ⟨w, hw, haddress⟩ := List.mem_map.mp (of_decide_eq_true hv)
    obtain ⟨hx, hauthentic⟩ := h.mem hvote hw
    rw [supports_iff]
    by_cases habsent : net.absent v = true
    · exact .inl habsent
    · obtain ⟨i, hi⟩ := not_forall_not.mp fun hall => habsent (decide_eq_true hall)
      have hs := hauthentic i (hi.trans haddress.symm)
      refine .inr ⟨i, w, hi, hs, ?_, hx⟩
      cases ht : w.voteType with
      | preVote => rfl
      | preCommit => exact absurd ⟨i, w, hs, ht, hx⟩ hfirst

end Network

end AuraChain
