import AuraChain.LevelHash

/-! The root of the state tree: it is the reference root of the map that the
operations leave, and it commits to that map. -/

namespace AuraChain

namespace SparseMerkleTree

/-- After any operations, and in any iteration order of the maps, the root is
that of the full tree over the map that they leave. So the order of operations
on different keys does not matter, and a deletion leaves the root of the
operations without the key. -/
theorem rootBy_eq_referenceRoot (c : Crates) (order order' : GroupOrder) (ops : List SmtOp) :
    (build c ops).rootBy c order = referenceRoot c (SmtOp.map ops) ∧
      (∀ ops', (∀ key, ops.filter (fun op => op.key = key) = ops'.filter fun op => op.key = key) →
        (build c ops).rootBy c order = (build c ops').rootBy c order') ∧
      ∀ key, ((build c ops).delete key).rootBy c order =
          referenceRoot c (Function.update (SmtOp.map ops) key []) ∧
        ((build c ops).delete key).rootBy c order =
          (build c (ops.filter fun op => op.key ≠ key)).rootBy c order' := by
  have hops := represents_build c ops
  refine ⟨hops.rootBy order, ?_, ?_⟩
  · intro ops' hsame
    rw [hops.rootBy, (represents_build c ops').rootBy, SmtOp.map_eq_of_filter hsame]
  · intro key
    have hdelete := (hops.apply (.delete key)).rootBy order
    have hwithout := (represents_build c (ops.filter fun op => op.key ≠ key)).rootBy order'
    rw [SmtOp.map_without] at hwithout
    exact ⟨hdelete, hdelete.trans hwithout.symm⟩

def reversedOrder : GroupOrder :=
  ⟨fun _ nodes => nodes.toList.reverse, fun _ _ => List.reverse_perm _⟩

theorem rootBy_swapped :
    (build (Reference.crates []) [.update Hash.zero [1], .update (FixedBytes.ofNat 32 1) [2]]).rootBy
        (Reference.crates []) sortedOrder =
      (build (Reference.crates []) [.update (FixedBytes.ofNat 32 1) [2], .update Hash.zero [1]]).rootBy
        (Reference.crates []) reversedOrder := by
  apply (rootBy_eq_referenceRoot (Reference.crates []) sortedOrder reversedOrder _).2.1
  intro key
  have hne : (Hash.zero : Hash) ≠ FixedBytes.ofNat 32 1 := by decide
  by_cases hz : Hash.zero = key
  · subst hz
    simp [hne.symm]
  · by_cases ho : FixedBytes.ofNat 32 1 = key <;> simp [hz, ho]

/-- Assuming that nothing hashed for the two trees collides or is zero, they
have one root exactly when they hold the same map. -/
theorem root_eq_iff_map_eq {c : Crates} {ops ops' : List SmtOp}
    (hinj : c.InjectiveOn (smtInputs c (SmtOp.map ops) ∪ smtInputs c (SmtOp.map ops')))
    (hzero : c.NonzeroOn (smtInputs c (SmtOp.map ops) ∪ smtInputs c (SmtOp.map ops'))) :
    (build c ops).root c = (build c ops').root c ↔ SmtOp.map ops = SmtOp.map ops' := by
  rw [(represents_build c ops).root, (represents_build c ops').root]
  exact ⟨eq_of_referenceRoot_eq hinj hzero, congrArg (referenceRoot c)⟩

theorem root_ne_of_value_ne :
    (build (Reference.levelCrates []) [.update Hash.zero [1]]).root (Reference.levelCrates []) ≠
      (build (Reference.levelCrates []) [.update Hash.zero [2]]).root (Reference.levelCrates []) := by
  have hne : Reference.leafNumber Hash.zero [1] ≠ Reference.leafNumber Hash.zero [2] := by
    decide +kernel
  have hone : Reference.leafNumber Hash.zero [1] ≠ 0 := by decide +kernel
  have htwo : Reference.leafNumber Hash.zero [2] ≠ 0 := by decide +kernel
  have hhash : (Reference.levelCrates []).blake3 = Reference.levelHash := rfl
  obtain ⟨hinj, hzero⟩ :=
    Reference.collisionFree_single hhash (by decide) (by decide) hne hone htwo
  have hiff : (build (Reference.levelCrates []) [.update Hash.zero [1]]).root _ =
      (build (Reference.levelCrates []) [.update Hash.zero [2]]).root _ ↔ _ :=
    root_eq_iff_map_eq hinj hzero
  intro h
  have hvalue := congrFun (hiff.mp h) Hash.zero
  simp [SmtOp.map, SmtOp.write, SmtOp.value] at hvalue

end SparseMerkleTree

end AuraChain
