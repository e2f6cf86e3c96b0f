import AuraChain.Types
import AuraChain.OrdMap

/-! The peers of a node with their scores and bans. Every call holds the lock of
the map while it runs. Only a call that replaces a peer can clear its ban. -/

namespace AuraChain

abbrev PeerId := FixedBytes 32

inductive SocketAddr
  | v4 (ip : FixedBytes 4) (port : UInt16)
  | v6 (ip : FixedBytes 16) (port : UInt16) (flowinfo scopeId : UInt32)
  deriving DecidableEq

structure PeerInfo where
  id : PeerId
  addr : Option SocketAddr
  bestHeight : UInt64
  bestHash : Hash
  reputationScore : Int32
  isBanned : Bool
  deriving DecidableEq

structure PeerManager where
  peers : OrdMap PeerId PeerInfo

namespace PeerInfo

def updateStatus (height : UInt64) (hash : Hash) (peer : PeerInfo) : PeerInfo :=
  { peer with bestHeight := height, bestHash := hash }

def penalize (penalty : Int32) (peer : PeerInfo) : PeerInfo :=
  { peer with
    reputationScore := peer.reputationScore - penalty
    isBanned := if peer.reputationScore - penalty < -100 then true else peer.isBanned }

def reward (bonus : Int32) (peer : PeerInfo) : PeerInfo :=
  { peer with
    reputationScore := if peer.reputationScore + bonus ≤ 100 then peer.reputationScore + bonus else 100 }

theorem isBanned_penalize {penalty : Int32} {peer : PeerInfo} (h : peer.isBanned = true) :
    (peer.penalize penalty).isBanned = true := by
  rw [penalize, h, ite_self]

end PeerInfo

namespace PeerManager

def new : PeerManager := ⟨∅⟩

/-- A peer of the same id is replaced. -/
def addPeer (pm : PeerManager) (peer : PeerInfo) : PeerManager := ⟨pm.peers.insert peer.id peer⟩

def removePeer (pm : PeerManager) (id : PeerId) : PeerManager := ⟨pm.peers.erase id⟩

/-- What the calls do that change a peer in its place. -/
def modify (pm : PeerManager) (id : PeerId) (f : PeerInfo → PeerInfo) : PeerManager :=
  match pm.peers[id]? with
  | some peer => ⟨pm.peers.insert id (f peer)⟩
  | none => pm

def updateStatus (pm : PeerManager) (id : PeerId) (height : UInt64) (hash : Hash) : PeerManager :=
  pm.modify id (PeerInfo.updateStatus height hash)

def penalize (pm : PeerManager) (id : PeerId) (penalty : Int32) : PeerManager :=
  pm.modify id (PeerInfo.penalize penalty)

def reward (pm : PeerManager) (id : PeerId) (bonus : Int32) : PeerManager :=
  pm.modify id (PeerInfo.reward bonus)

/-- The order in which the HashMap is walked. -/
structure Walk where
  values : PeerManager → List PeerInfo
  values_perm : ∀ pm, (values pm).Perm (OrdMap.contents pm.peers)

def Walk.byId : Walk := ⟨fun pm => OrdMap.contents pm.peers, fun _ => .refl _⟩

def activePeers (walk : Walk) (pm : PeerManager) : List PeerInfo :=
  (walk.values pm).filter fun peer => !peer.isBanned

/-- Of the peers with the greatest height the last one on the walk. -/
def getHighestPeer (walk : Walk) (pm : PeerManager) : Option PeerInfo :=
  (activePeers walk pm).reverse.argmax fun peer => peer.bestHeight.toNat

def activePeerCount (walk : Walk) (pm : PeerManager) : Nat := (activePeers walk pm).length

inductive Call
  | addPeer (peer : PeerInfo)
  | removePeer (id : PeerId)
  | updateStatus (id : PeerId) (height : UInt64) (hash : Hash)
  | penalize (id : PeerId) (penalty : Int32)
  | reward (id : PeerId) (bonus : Int32)
  deriving DecidableEq

def apply (pm : PeerManager) : Call → PeerManager
  | .addPeer peer => pm.addPeer peer
  | .removePeer id => pm.removePeer id
  | .updateStatus id height hash => pm.updateStatus id height hash
  | .penalize id penalty => pm.penalize id penalty
  | .reward id bonus => pm.reward id bonus

def run (pm : PeerManager) (calls : List Call) : PeerManager := calls.foldl apply pm

theorem run_append (pm : PeerManager) (calls calls' : List Call) :
    pm.run (calls ++ calls') = (pm.run calls).run calls' := List.foldl_append

theorem run_concat (pm : PeerManager) (calls : List Call) (call : Call) :
    pm.run (calls ++ [call]) = (pm.run calls).apply call := by
  rw [run_append]
  rfl

variable {pm : PeerManager} {walk : Walk} {id id' : PeerId} {peer : PeerInfo}

theorem lookup_modify (f : PeerInfo → PeerInfo) : (pm.modify id f).peers[id']? =
    if id = id' then (pm.peers[id']?).map f else pm.peers[id']? := by
  rw [modify]
  cases hl : pm.peers[id]? with
  | none =>
    split_ifs with hid
    · rw [← hid, hl]
      rfl
    · rfl
  | some peer =>
    rw [OrdMap.lookup_insert]
    split_ifs with hid
    · rw [← hid, hl]
      rfl
    · rfl

theorem mem_activePeers : peer ∈ activePeers walk pm ↔
    (∃ key : PeerId, pm.peers[key]? = some peer) ∧ peer.isBanned = false := by
  rw [activePeers, List.mem_filter, (walk.values_perm pm).mem_iff, OrdMap.mem_contents,
    Bool.not_eq_true']

theorem getHighestPeer_spec (h : getHighestPeer walk pm = some peer) :
    peer ∈ activePeers walk pm ∧
      ∀ other ∈ activePeers walk pm, other.bestHeight ≤ peer.bestHeight := by
  refine ⟨List.mem_reverse.mp (List.argmax_mem h), fun other hother => ?_⟩
  exact List.le_of_mem_argmax (List.mem_reverse.mpr hother) h

/-- Every peer stands under its own id. -/
def Keyed (pm : PeerManager) : Prop :=
  ∀ (id : PeerId) (peer : PeerInfo), pm.peers[id]? = some peer → peer.id = id

theorem Keyed.new : Keyed new := by
  intro id peer hl
  simp [PeerManager.new] at hl

theorem Keyed.addPeer (h : pm.Keyed) (peer : PeerInfo) : (pm.addPeer peer).Keyed := by
  intro id stored hl
  rw [PeerManager.addPeer, OrdMap.lookup_insert] at hl
  split_ifs at hl with hid
  · rw [← Option.some.inj hl, hid]
  · exact h id stored hl

theorem Keyed.removePeer (h : pm.Keyed) (id : PeerId) : (pm.removePeer id).Keyed := by
  intro id' stored hl
  rw [PeerManager.removePeer, OrdMap.lookup_erase] at hl
  split_ifs at hl
  exact h id' stored hl

theorem Keyed.modify (h : pm.Keyed) (id : PeerId) {f : PeerInfo → PeerInfo}
    (hf : ∀ peer, (f peer).id = peer.id) : (pm.modify id f).Keyed := by
  intro id' stored hl
  rw [lookup_modify] at hl
  split_ifs at hl
  · obtain ⟨peer, hpeer, rfl⟩ := Option.map_eq_some_iff.mp hl
    rw [hf]
    exact h id' peer hpeer
  · exact h id' stored hl

theorem Keyed.apply (h : pm.Keyed) (call : Call) : (pm.apply call).Keyed := by
  cases call with
  | addPeer peer => exact h.addPeer peer
  | removePeer id => exact h.removePeer id
  | updateStatus id height hash => exact h.modify id fun _ => rfl
  | penalize id penalty => exact h.modify id fun _ => rfl
  | reward id bonus => exact h.modify id fun _ => rfl

theorem Keyed.run (h : pm.Keyed) (calls : List Call) : (pm.run calls).Keyed := by
  induction calls generalizing pm with
  | nil => exact h
  | cons call calls ih => exact ih (h.apply call)

end PeerManager

end AuraChain
