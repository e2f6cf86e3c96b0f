import AuraChain.GreedyPick
import AuraChain.MempoolRun

/-! The order in which `harvest` returns transactions. It goes by the fee per
byte, and among equal ones by the higher nonce. -/

namespace AuraChain

namespace PriorityKey

theorem feePerByte_lt_of_nonce_lt {a b : PriorityKey} (h : compare a b = .lt)
    (hn : b.nonce < a.nonce) : a.feePerByte < b.feePerByte := by
  rw [compare_eq_then, Ordering.then_eq_lt] at h
  rcases h with hfee | ⟨-, hrest⟩
  · exact Std.compare_eq_lt.mp hfee
  · have hle : a.nonce ≤ b.nonce := by
      have hthen : ((compare a.nonce b.nonce).then (compare a.txHash b.txHash)).isLE := by
        rw [hrest]
        rfl
      exact Std.isLE_compare.mp (Ordering.isLE_left_of_isLE_then hthen)
    exact absurd hle (UInt64.not_le.mpr hn)

theorem feePerByte_le_of_lt {a b : PriorityKey} (h : compare a b = .lt) :
    a.feePerByte ≤ b.feePerByte :=
  feePerByte_le (by rw [h]; rfl)

end PriorityKey

namespace Mempool

/-- The pooled transactions in the order of the index, the highest key first. -/
def ranked (pool : Mempool) : List Transaction :=
  pool.priorityIndex.toList.reverse.filterMap fun key => pool.byHash[key.txHash]?

/-- The transaction fits into what those that rank above it leave. -/
abbrev Fits (pool : Mempool) (maxBytes : Nat) (tx : Transaction) : Prop :=
  GreedyPick.Fits Transaction.sizeBytes maxBytes pool.ranked tx

/-- Each sender's transactions come with rising nonces and without a gap that a
pooled transaction fills. -/
structure NonceSequenced (pooled harvested : List Transaction) : Prop where
  rising : harvested.Pairwise fun t u => t.sender = u.sender → t.nonce < u.nonce
  complete : ∀ before t after, harvested = before ++ t :: after →
    ∀ u ∈ pooled, u.sender = t.sender → u.nonce < t.nonce → u ∈ before

/-- The transaction ranks above the other one. -/
abbrev RanksAbove (c : Crates) (t u : Transaction) : Prop :=
  compare (u.priorityKey c) (t.priorityKey c) = .lt

/-- A selection by rank that skips what does not fit and goes on. -/
structure GreedySelection (c : Crates) (maxBytes : Nat)
    (pooled harvested : List Transaction) : Prop where
  nodup : harvested.Nodup
  subset : ∀ tx ∈ harvested, tx ∈ pooled
  descending : harvested.Pairwise (RanksAbove c)
  fits : bytes harvested ≤ maxBytes
  maximal : ∀ tx ∈ pooled, tx ∉ harvested →
    maxBytes < bytes (harvested.filter fun t => RanksAbove c t tx) + tx.sizeBytes

variable {c : Crates} {config : MempoolConfig} {pool : Mempool} {tx : Transaction}

theorem harvestKeys_eq_pick (byHash : OrdMap Hash Transaction) {maxBytes currentBytes : Nat}
    (keys : List PriorityKey) (h : currentBytes ≤ maxBytes) :
    harvestKeys byHash maxBytes keys currentBytes = GreedyPick.pick Transaction.sizeBytes
      (maxBytes - currentBytes) (keys.filterMap fun key => byHash[key.txHash]?) := by
  induction keys generalizing currentBytes with
  | nil => rfl
  | cons key keys ih =>
    rw [harvestKeys, List.filterMap_cons]
    cases hl : byHash[key.txHash]? with
    | none => exact ih h
    | some t =>
      simp only [GreedyPick.pick]
      by_cases hfits : currentBytes + t.sizeBytes ≤ maxBytes
      · have hsub : maxBytes - (currentBytes + t.sizeBytes) = maxBytes - currentBytes - t.sizeBytes := by
          omega
        rw [if_pos hfits, if_pos (by omega), ih hfits, hsub]
      · rw [if_neg hfits, if_neg (by omega), ih h]

theorem harvest_eq_pick (pool : Mempool) (maxBytes : Nat) :
    pool.harvest maxBytes = GreedyPick.pick Transaction.sizeBytes maxBytes pool.ranked :=
  harvestKeys_eq_pick pool.byHash _ (Nat.zero_le maxBytes)

theorem mem_ranked (hc : pool.Consistent c) : tx ∈ pool.ranked ↔ tx ∈ pool.pooled := by
  rw [mem_pooled hc, ranked, List.mem_filterMap]
  constructor
  · rintro ⟨key, -, hl⟩
    rw [hc.hash _ tx hl]
    exact hl
  · intro hl
    refine ⟨tx.priorityKey c, ?_, hl⟩
    rw [List.mem_reverse, Std.ExtTreeSet.mem_toList]
    exact (hc.index _).mpr ⟨tx, hl, rfl⟩

theorem ranked_pairwise (hc : pool.Consistent c) : pool.ranked.Pairwise fun t u =>
    compare (u.priorityKey c) (t.priorityKey c) = .lt := by
  have hdown : pool.priorityIndex.toList.reverse.Pairwise fun a b => compare b a = .lt :=
    List.pairwise_reverse.mpr Std.ExtTreeSet.ordered_toList
  rw [ranked, List.pairwise_filterMap]
  refine hdown.imp_of_mem fun {a b} ha hb hab t ht u hu => ?_
  rw [priorityKey_of_indexed hc ha ht, priorityKey_of_indexed hc hb hu]
  exact hab

theorem ranked_nodup (hc : pool.Consistent c) : pool.ranked.Nodup := by
  refine (ranked_pairwise hc).imp fun {t u} h he => ?_
  have heq : compare (u.priorityKey c) (t.priorityKey c) = .eq :=
    Std.compare_eq_iff_eq.mpr (congrArg _ he.symm)
  rw [heq] at h
  cases h

theorem harvest_mem_iff (hc : pool.Consistent c) {maxBytes : Nat} :
    tx ∈ pool.harvest maxBytes ↔ tx ∈ pool.pooled ∧ pool.Fits maxBytes tx := by
  rw [harvest_eq_pick, GreedyPick.mem_pick_iff _ (ranked_nodup hc), mem_ranked hc]

theorem harvest_pairwise (hc : pool.Consistent c) (maxBytes : Nat) :
    (pool.harvest maxBytes).Pairwise fun t u =>
      compare (u.priorityKey c) (t.priorityKey c) = .lt := by
  rw [harvest_eq_pick]
  exact (ranked_pairwise hc).sublist (GreedyPick.pick_sublist _ _ _)

theorem Exact.sequenced_iff (he : pool.Exact c config) (maxBytes : Nat) :
    NonceSequenced pool.pooled (pool.harvest maxBytes) ↔
      ∀ t ∈ pool.pooled, ∀ u ∈ pool.pooled, u.sender = t.sender → u.nonce < t.nonce →
        pool.Fits maxBytes t → t.feePerByte < u.feePerByte ∧ pool.Fits maxBytes u := by
  have hc := he.consistent
  have hsorted := harvest_pairwise hc maxBytes
  constructor
  · intro hseq t ht u hu hsender hnonce hfits
    obtain ⟨before, after, hsplit⟩ :=
      List.mem_iff_append.mp ((harvest_mem_iff hc).mpr ⟨ht, hfits⟩)
    have hbefore := hseq.complete before t after hsplit u hu hsender hnonce
    have hharvested : u ∈ pool.harvest maxBytes := by
      rw [hsplit]
      exact List.mem_append_left _ hbefore
    rw [hsplit] at hsorted
    have hrank := (List.pairwise_append.mp hsorted).2.2 u hbefore t List.mem_cons_self
    exact ⟨PriorityKey.feePerByte_lt_of_nonce_lt hrank hnonce, ((harvest_mem_iff hc).mp hharvested).2⟩
  · intro hcond
    have hnot : ∀ t u, t ∈ pool.harvest maxBytes → u ∈ pool.pooled → u.sender = t.sender →
        u.nonce < t.nonce → ¬ compare (u.priorityKey c) (t.priorityKey c) = .lt := by
      intro t u ht hu hsender hnonce hrank
      obtain ⟨htp, hfits⟩ := (harvest_mem_iff hc).mp ht
      obtain ⟨hfee, -⟩ := hcond t htp u hu hsender hnonce hfits
      exact UInt64.not_le.mpr hfee (PriorityKey.feePerByte_le_of_lt hrank)
    refine ⟨?_, fun before t after hsplit u hu hsender hnonce => ?_⟩
    · have hpair := hsorted.and (List.nodup_iff_pairwise_ne.mp (harvest_nodup hc maxBytes))
      refine hpair.imp_of_mem fun {t u} ht hu ⟨hrank, hne⟩ hsender => ?_
      have htp := ((harvest_mem_iff hc).mp ht).1
      have hup := ((harvest_mem_iff hc).mp hu).1
      rcases UInt64.lt_or_lt_of_ne (fun hn => hne (he.distinct htp hup hsender hn)) with hlt | hlt
      · exact hlt
      · exact absurd hrank (hnot t u ht hup hsender.symm hlt)
    · have ht : t ∈ pool.harvest maxBytes := by simp [hsplit]
      obtain ⟨htp, hfits⟩ := (harvest_mem_iff hc).mp ht
      have hu' := (harvest_mem_iff hc).mpr ⟨hu, (hcond t htp u hu hsender hnonce hfits).2⟩
      rw [hsplit] at hu' hsorted
      rcases List.mem_append.mp hu' with hin | hin
      · exact hin
      · rcases List.mem_cons.mp hin with rfl | hafter
        · exact absurd hnonce (UInt64.lt_irrefl _)
        · have hrank := (List.pairwise_cons.mp (List.pairwise_append.mp hsorted).2.1).1 u hafter
          exact absurd hrank (hnot t u ht hu hsender hnonce)

theorem ranked_perm (hc : pool.Consistent c) : pool.ranked.Perm pool.pooled :=
  (List.perm_ext_iff_of_nodup (ranked_nodup hc) (pooled_nodup hc)).mpr fun _ => mem_ranked hc

/-- A harvest of the whole pool follows the nonces exactly when each sender pays
the less per byte the higher the nonce. -/
theorem Exact.sequenced_whole_iff (he : pool.Exact c config) {maxBytes : Nat}
    (hbytes : pool.totalBytes ≤ maxBytes) : NonceSequenced pool.pooled (pool.harvest maxBytes) ↔
      ∀ t ∈ pool.pooled, ∀ u ∈ pool.pooled, u.sender = t.sender → u.nonce < t.nonce →
        t.feePerByte < u.feePerByte := by
  have hc := he.consistent
  have hsum : (pool.ranked.map Transaction.sizeBytes).sum ≤ maxBytes := by
    calc (pool.ranked.map Transaction.sizeBytes).sum =
          Mempool.bytes pool.pooled := bytes_perm (ranked_perm hc)
      _ = pool.totalBytes := he.bytes.symm
      _ ≤ maxBytes := hbytes
  have hfits : ∀ t ∈ pool.pooled, pool.Fits maxBytes t := fun t ht =>
    .of_sum _ (ranked_nodup hc) hsum ((mem_ranked hc).mpr ht)
  rw [he.sequenced_iff]
  constructor
  · intro hcond t ht u hu hsender hnonce
    exact (hcond t ht u hu hsender hnonce (hfits t ht)).1
  · intro hcond t ht u hu hsender hnonce _
    exact ⟨hcond t ht u hu hsender hnonce, hfits u hu⟩

theorem RanksAbove.asymm {t u : Transaction} (h : RanksAbove c t u) : ¬ RanksAbove c u t := by
  intro hback
  have hgt : compare (t.priorityKey c) (u.priorityKey c) = .gt := Std.OrientedCmp.gt_of_lt h
  rw [hback] at hgt
  cases hgt

theorem Consistent.harvest_greedy (hc : pool.Consistent c) (maxBytes : Nat) :
    GreedySelection c maxBytes pool.pooled (pool.harvest maxBytes) where
  nodup := harvest_nodup hc maxBytes
  subset _ hm := ((harvest_mem_iff hc).mp hm).1
  descending := harvest_pairwise hc maxBytes
  fits := by
    rw [harvest_eq_pick]
    exact GreedyPick.sum_pick_le _ _ _
  maximal tx ht hout := by
    rw [harvest_eq_pick] at hout ⊢
    exact GreedyPick.pick_maximal Transaction.sizeBytes (fun _ _ => RanksAbove.asymm)
      (ranked_pairwise hc) ((mem_ranked hc).mpr ht) hout

/-- What `harvest` returns is the greedy selection by priority key. -/
theorem harvest_selects (h : Reachable c config pool) (maxBytes : Nat) :
    GreedySelection c maxBytes pool.pooled (pool.harvest maxBytes) :=
  h.exact.consistent.harvest_greedy maxBytes

/-- The harvest follows the nonces exactly when, of two pooled transactions of
one sender, the one with the higher nonce is out of budget or pays less per byte
and leaves room for the other. -/
theorem harvest_sequenced_iff (h : Reachable c config pool) (maxBytes : Nat) :
    NonceSequenced pool.pooled (pool.harvest maxBytes) ↔
      ∀ t ∈ pool.pooled, ∀ u ∈ pool.pooled, u.sender = t.sender → u.nonce < t.nonce →
        pool.Fits maxBytes t → t.feePerByte < u.feePerByte ∧ pool.Fits maxBytes u :=
  h.exact.sequenced_iff maxBytes

end Mempool

namespace HarvestOrder

open MempoolRun

theorem harvest_sequenced_falling : ∃ pool : Mempool, pool.byHash.size = 2 ∧
    Mempool.NonceSequenced pool.pooled (pool.harvest 200) := by
  have hcalls : (runAll (Mempool.step crates) (fun _ _ => True) (Mempool.new ⟨10, 10000, 10⟩)
      [add (transfer 2 200 2), add (transfer 2 500 1)]).map (fun t => (t.1.byHash.size,
        decide (∀ u ∈ t.1.pooled, ∀ v ∈ t.1.pooled, v.sender = u.sender → v.nonce < u.nonce →
          t.1.Fits 200 u → u.feePerByte < v.feePerByte ∧ t.1.Fits 200 v))) = some (2, true) := by
    decide +kernel
  obtain ⟨pool, hreach, hpool⟩ := Mempool.Reachable.of_calls
    (f := fun pool => (pool.byHash.size, decide (∀ u ∈ pool.pooled, ∀ v ∈ pool.pooled,
      v.sender = u.sender → v.nonce < u.nonce → pool.Fits 200 u →
        u.feePerByte < v.feePerByte ∧ pool.Fits 200 v))) hcalls
  obtain ⟨hsize, hcond⟩ := Prod.mk.inj hpool
  exact ⟨pool, hsize, (Mempool.harvest_sequenced_iff hreach 200).mpr (of_decide_eq_true hcond)⟩

def heavy : Transaction :=
  let tx := { transfer 2 600 2 with payload := List.replicate 90 0 }
  { tx with signature := Reference.sign (Reference.secretKey 2) tx.signingBytes }

/-- The second of three does not fit, the third does. -/
theorem harvest_selects_skipping : ∃ pool : Mempool, pool.byHash.size = 3 ∧
    pool.harvest 400 = [transfer 2 500 1, transfer 3 200 1] ∧
    Mempool.GreedySelection crates 400 pool.pooled (pool.harvest 400) := by
  have hcalls : (runAll (Mempool.step crates) (fun _ _ => True) (Mempool.new ⟨10, 10000, 10⟩)
      [add (transfer 2 500 1), add heavy, add (transfer 3 200 1)]).map (fun t => (t.1.byHash.size, t.1.harvest 400)) =
      some (3, [transfer 2 500 1, transfer 3 200 1]) := by decide +kernel
  obtain ⟨pool, hreach, hpool⟩ := Mempool.Reachable.of_calls
    (f := fun pool => (pool.byHash.size, pool.harvest 400)) hcalls
  obtain ⟨hsize, hharvest⟩ := Prod.mk.inj hpool
  exact ⟨pool, hsize, hharvest, Mempool.harvest_selects hreach 400⟩

/-- Of two transactions of one sender with the same fee, the later comes first. -/
theorem harvest_unsequenced : ¬ ∀ (c : Crates) (config : MempoolConfig) (pool : Mempool)
    (maxBytes : Nat), Mempool.Reachable c config pool →
      Mempool.NonceSequenced pool.pooled (pool.harvest maxBytes) := by
  intro hclaim
  have hcalls : (runAll (Mempool.step crates) (fun _ _ => True) (Mempool.new ⟨10, 10000, 10⟩)
      [add (transfer 2 200 1), add (transfer 2 200 2)]).map (fun t => t.1.harvest 10000) =
      some [transfer 2 200 2, transfer 2 200 1] := by decide +kernel
  obtain ⟨pool, hreach, hharvest⟩ :=
    Mempool.Reachable.of_calls (f := fun pool => pool.harvest 10000) hcalls
  have hrising := (hclaim crates _ pool 10000 hreach).rising
  rw [hharvest] at hrising
  have hlt := (List.pairwise_cons.mp hrising).1 (transfer 2 200 1) List.mem_cons_self rfl
  exact absurd hlt (by decide)

end HarvestOrder

end AuraChain
