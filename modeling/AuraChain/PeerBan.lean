import AuraChain.PeerManager

/-! How long a ban lasts. The flag outlives every reward and every status, but a
peer that is added again brings a record of its own. -/

namespace AuraChain

namespace PeerManager

/-- The peer is not chosen, and the count is what it would be without it. -/
structure Excluded (pm : PeerManager) (id : PeerId) : Prop where
  notHighest : ∀ walk peer, getHighestPeer walk pm = some peer → peer.id ≠ id
  notCounted : ∀ walk walk', activePeerCount walk pm = activePeerCount walk' (pm.removePeer id)

def Barred (pm : PeerManager) (id : PeerId) : Prop :=
  ∀ peer, pm.peers[id]? = some peer → peer.isBanned = true

/-- The peer is added with a record that is not banned. -/
def Call.readmits (id : PeerId) : Call → Prop
  | .addPeer peer => peer.id = id ∧ peer.isBanned = false
  | _ => False

instance (id : PeerId) (call : Call) : Decidable (call.readmits id) :=
  match call with
  | .addPeer _ => inferInstanceAs (Decidable (_ ∧ _))
  | .removePeer _ => isFalse not_false
  | .updateStatus .. => isFalse not_false
  | .penalize .. => isFalse not_false
  | .reward .. => isFalse not_false

variable {pm : PeerManager} {walk walk' : Walk} {id : PeerId} {peer : PeerInfo}

theorem activePeerCount_eq (walk : Walk) (pm : PeerManager) : activePeerCount walk pm =
    (OrdMap.contents pm.peers).countP fun peer => !peer.isBanned := by
  rw [activePeerCount, activePeers, ← List.countP_eq_length_filter]
  exact (walk.values_perm pm).countP_eq _

theorem activePeerCount_removePeer (walk walk' : Walk) (hl : pm.peers[id]? = some peer) :
    activePeerCount walk pm =
      activePeerCount walk' (pm.removePeer id) + if peer.isBanned then 0 else 1 := by
  rw [activePeerCount_eq, activePeerCount_eq, (OrdMap.contents_erase hl).countP_eq,
    List.countP_cons, removePeer]
  cases peer.isBanned <;> rfl

theorem excluded_iff (h : pm.Keyed) : pm.Excluded id ↔ pm.Barred id := by
  constructor
  · intro hexcluded peer hl
    have hcount := hexcluded.notCounted .byId .byId
    rw [activePeerCount_removePeer .byId .byId hl] at hcount
    by_contra hactive
    rw [if_neg hactive] at hcount
    omega
  · intro hbarred
    refine ⟨fun walk peer hpeer hid => ?_, fun walk walk' => ?_⟩
    · obtain ⟨⟨key, hl⟩, hactive⟩ := mem_activePeers.mp (getHighestPeer_spec hpeer).1
      obtain rfl : key = id := (h key peer hl).symm.trans hid
      rw [hbarred peer hl] at hactive
      cases hactive
    · cases hl : pm.peers[id]? with
      | none => rw [activePeerCount_eq, activePeerCount_eq, removePeer, OrdMap.erase_absent hl]
      | some peer => rw [activePeerCount_removePeer walk walk' hl, if_pos (hbarred peer hl), Nat.add_zero]

theorem Barred.modify (h : pm.Barred id) (id' : PeerId) {f : PeerInfo → PeerInfo}
    (hf : ∀ peer, peer.isBanned = true → (f peer).isBanned = true) : (pm.modify id' f).Barred id := by
  intro peer hl
  rw [lookup_modify] at hl
  split_ifs at hl
  · obtain ⟨old, hold, rfl⟩ := Option.map_eq_some_iff.mp hl
    exact hf old (h old hold)
  · exact h peer hl

/-- Every call that does not readmit the peer leaves it out. -/
theorem Barred.apply (h : pm.Barred id) {call : Call} (hcall : ¬ call.readmits id) :
    (pm.apply call).Barred id := by
  cases call with
  | addPeer peer =>
    intro stored hl
    rw [PeerManager.apply, addPeer, OrdMap.lookup_insert] at hl
    split_ifs at hl with hid
    · rw [← Option.some.inj hl]
      by_contra hactive
      exact hcall ⟨hid, Bool.eq_false_iff.mpr hactive⟩
    · exact h stored hl
  | removePeer id' =>
    intro stored hl
    rw [PeerManager.apply, removePeer, OrdMap.lookup_erase] at hl
    split_ifs at hl
    exact h stored hl
  | updateStatus id' height hash => exact h.modify id' fun _ hbanned => hbanned
  | penalize id' penalty => exact h.modify id' fun _ hbanned => PeerInfo.isBanned_penalize hbanned
  | reward id' bonus => exact h.modify id' fun _ hbanned => hbanned

theorem Barred.run (h : pm.Barred id) {calls : List Call} (hcalls : ∀ call ∈ calls, ¬ call.readmits id) :
    (pm.run calls).Barred id := by
  induction calls generalizing pm with
  | nil => exact h
  | cons call calls ih =>
    obtain ⟨hcall, hrest⟩ := List.forall_mem_cons.mp hcalls
    exact ih (h.apply hcall) hrest

theorem not_barred_of_readmits {call : Call} (hcall : call.readmits id) : ¬ (pm.apply call).Barred id := by
  intro hbarred
  cases call with
  | addPeer peer =>
    obtain ⟨rfl, hactive⟩ := hcall
    have hbanned := hbarred peer (by rw [PeerManager.apply, addPeer, OrdMap.lookup_insert, if_pos rfl])
    rw [hactive] at hbanned
    cases hbanned
  | removePeer id' => exact hcall
  | updateStatus id' height hash => exact hcall
  | penalize id' penalty => exact hcall
  | reward id' bonus => exact hcall

theorem barred_of_score {penalty : Int32} (hpeer : (pm.penalize id penalty).peers[id]? = some peer)
    (hscore : peer.reputationScore < -100) : (pm.penalize id penalty).Barred id := by
  intro stored hl
  rw [hpeer, Option.some.injEq] at hl
  subst hl
  rw [penalize, lookup_modify, if_pos rfl] at hpeer
  obtain ⟨old, -, rfl⟩ := Option.map_eq_some_iff.mp hpeer
  rw [PeerInfo.penalize] at hscore ⊢
  exact if_pos hscore

/-- From the call on that bans a peer, it is left out of every choice and of
every count exactly as long as nothing readmits it. -/
theorem ban_is_permanent_iff {before after : List Call} {penalty : Int32}
    (hpeer : ((new.run before).penalize id penalty).peers[id]? = some peer)
    (hscore : peer.reputationScore < -100) :
    (∀ later, later <+: after → (new.run (before ++ .penalize id penalty :: later)).Excluded id) ↔
      ∀ call ∈ after, ¬ call.readmits id := by
  have hbarred := barred_of_score hpeer hscore
  have hstate : ∀ later, new.run (before ++ .penalize id penalty :: later) =
      ((new.run before).penalize id penalty).run later := fun later => run_append _ _ _
  have hkeyed : ∀ calls, (new.run calls).Keyed := fun calls => Keyed.new.run calls
  constructor
  · intro hexcluded call hcall hreadmits
    obtain ⟨l, r, rfl⟩ := List.append_of_mem hcall
    have hlater : l ++ [call] <+: l ++ call :: r := ⟨r, by simp⟩
    have hout := (excluded_iff (hkeyed _)).mp (hexcluded (l ++ [call]) hlater)
    rw [hstate, run_concat] at hout
    exact not_barred_of_readmits hreadmits hout
  · intro hnone later hlater
    rw [excluded_iff (hkeyed _), hstate]
    exact hbarred.run fun call hcall => hnone call (hlater.subset hcall)

end PeerManager

namespace PeerBan

open PeerManager

def peer : PeerInfo := ⟨FixedBytes.zero 32, none, 50, Hash.zero, 10, false⟩

def banned : PeerInfo := { peer with reputationScore := -140, isBanned := true }

theorem banned_after_penalty :
    ((new.run [.addPeer peer]).penalize peer.id 150).peers[peer.id]? = some banned := by
  decide +kernel

theorem ban_is_permanent_rewarded :
    (∀ later, later <+: [.reward peer.id 100, .reward peer.id 100, .updateStatus peer.id 60 Hash.zero] →
        (new.run ([.addPeer peer] ++ .penalize peer.id 150 :: later)).Excluded peer.id) ↔
      ∀ call ∈ [.reward peer.id 100, .reward peer.id 100, .updateStatus peer.id 60 Hash.zero],
        ¬ Call.readmits peer.id call :=
  ban_is_permanent_iff banned_after_penalty (by decide)

/-- The peer comes back with the record that it came with at first. -/
theorem ban_ends_on_reconnect : ¬ ∀ (before after : List Call) (id : PeerId) (penalty : Int32)
    (peer : PeerInfo), ((new.run before).penalize id penalty).peers[id]? = some peer →
      peer.reputationScore < -100 → Call.removePeer id ∉ after →
        (new.run (before ++ .penalize id penalty :: after)).Excluded id := by
  intro hclaim
  have hexcluded := hclaim [.addPeer peer] [.addPeer peer] peer.id 150 banned banned_after_penalty
    (by decide) (by decide)
  have hchosen : getHighestPeer .byId
      (new.run ([.addPeer peer] ++ .penalize peer.id 150 :: [.addPeer peer])) = some peer := by
    decide +kernel
  exact hexcluded.notHighest .byId peer hchosen rfl

end PeerBan

end AuraChain
