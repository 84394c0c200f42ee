import Tensorium.Lib.BulkMap

/-! # Maps under encoded keys

    A map is written out with its keys and values encoded, and read back by a loop that
    skips the keys it cannot decode. Nothing is lost, whatever the order of the two
    loops, as soon as every encoding is decoded to what it encodes.
-/

namespace BulkMap

variable {α β γ δ : Type*} [DecidableEq α] [DecidableEq γ]

/-- The map with encoded keys and values, written out by a loop over it. -/
def rekey (order : Iteration α β) (encodeKey : α → γ) (encodeValue : β → δ) (m : Map α β) :
    Map γ δ :=
  insertAll ∅ ((order.list m).map fun kv => (encodeKey kv.1, encodeValue kv.2))

/-- A map with encoded keys and values, read into another one by a loop over it. -/
def readInto (order : Iteration γ δ) (decodeKey : γ → Option α) (decodeValue : δ → β)
    (written : Map γ δ) (m : Map α β) : Map α β :=
  insertAll m ((order.list written).filterMap fun kv =>
    (decodeKey kv.1).map fun k => (k, decodeValue kv.2))

/-- A list of bindings with different keys leaves each of them. -/
theorem lastBinding_eq_some_iff {kvs : List (α × β)} {k : α} {v : β}
    (huniq : ∀ v v', (k, v) ∈ kvs → (k, v') ∈ kvs → v = v') :
    lastBinding kvs k = some v ↔ (k, v) ∈ kvs := by
  constructor
  · exact mem_of_lastBinding
  · intro hmem
    exact lastBinding_eq_some hmem fun v' hmem' => huniq v' v hmem' hmem

/-- What is written under a key is what some key that is encoded to it has. -/
theorem lookup_rekey (order : Iteration α β) {encodeKey : α → γ}
    (hinj : Function.Injective encodeKey) (encodeValue : β → δ) (m : Map α β) (k' : γ) (w : δ) :
    (rekey order encodeKey encodeValue m).lookup k' = some w ↔
      ∃ k v, m.lookup k = some v ∧ encodeKey k = k' ∧ encodeValue v = w := by
  have hmem : ∀ w, (k', w) ∈ (order.list m).map (fun kv => (encodeKey kv.1, encodeValue kv.2)) ↔
      ∃ k v, m.lookup k = some v ∧ encodeKey k = k' ∧ encodeValue v = w := by
    intro w
    simp only [List.mem_map, Prod.mk.injEq, Prod.exists, order.mem_iff]
  unfold rekey
  rw [lookup_insertAll, Finmap.lookup_empty, Option.or_none, lastBinding_eq_some_iff, hmem]
  intro w w' hw hw'
  obtain ⟨k, v, hv, hk, rfl⟩ := (hmem w).mp hw
  obtain ⟨k₂, v₂, hv₂, hk₂, rfl⟩ := (hmem w').mp hw'
  obtain rfl := hinj (hk.trans hk₂.symm)
  rw [hv] at hv₂
  rw [Option.some.inj hv₂]

/-- **Written out and read back.** -/
theorem readInto_rekey (order : Iteration α β) (order' : Iteration γ δ) {encodeKey : α → γ}
    {decodeKey : γ → Option α} {encodeValue : β → δ} {decodeValue : δ → β}
    (hkey : ∀ k, decodeKey (encodeKey k) = some k) (hvalue : ∀ v, decodeValue (encodeValue v) = v)
    (m : Map α β) :
    readInto order' decodeKey decodeValue (rekey order encodeKey encodeValue m) ∅ = m := by
  have hinj : Function.Injective encodeKey := by
    intro k k' h
    exact Option.some.inj ((hkey k).symm.trans ((congrArg decodeKey h).trans (hkey k')))
  -- Each binding of the map is read once, since encoded keys are distinct.
  have hmem : ∀ k v, (k, v) ∈ (order'.list (rekey order encodeKey encodeValue m)).filterMap
      (fun kv => (decodeKey kv.1).map fun k => (k, decodeValue kv.2)) ↔ m.lookup k = some v := by
    intro k v
    rw [List.mem_filterMap]
    constructor
    · rintro ⟨⟨k', w⟩, hkw, hdecoded⟩
      rw [order'.mem_iff, lookup_rekey order hinj] at hkw
      obtain ⟨k₀, v₀, hlookup, rfl, rfl⟩ := hkw
      simp only [hkey, hvalue, Option.map_some, Option.some.injEq, Prod.mk.injEq] at hdecoded
      obtain ⟨rfl, rfl⟩ := hdecoded
      exact hlookup
    · intro hlookup
      refine ⟨(encodeKey k, encodeValue v), ?_, ?_⟩
      · rw [order'.mem_iff, lookup_rekey order hinj]
        exact ⟨k, v, hlookup, rfl, rfl⟩
      · simp only [hkey, hvalue, Option.map_some]
  apply Finmap.ext_lookup
  intro k
  apply Option.ext
  intro v
  unfold readInto
  rw [lookup_insertAll, Finmap.lookup_empty, Option.or_none, lastBinding_eq_some_iff, hmem]
  intro v v' hv hv'
  rw [hmem] at hv hv'
  exact Option.some.inj (hv.symm.trans hv')

/-- An order of iteration exists, whatever the keys are. -/
noncomputable def Iteration.any : Iteration α β where
  list m := m.entries.toList.map fun e => (e.1, e.2)
  nodup m := by
    rw [List.map_map]
    have hkeys : (m.entries.toList.map Sigma.fst).Nodup := by
      have hnodup := m.nodupKeys
      rw [← Multiset.coe_toList m.entries, Multiset.coe_nodupKeys] at hnodup
      exact hnodup
    exact hkeys
  mem_iff m k v := by
    rw [Finmap.lookup_eq_some_iff, List.mem_map]
    constructor
    · rintro ⟨e, he, heq⟩
      obtain ⟨rfl, rfl⟩ := Prod.mk.inj heq
      exact Multiset.mem_toList.mp he
    · intro hmem
      exact ⟨⟨k, v⟩, Multiset.mem_toList.mpr hmem, rfl⟩

end BulkMap
