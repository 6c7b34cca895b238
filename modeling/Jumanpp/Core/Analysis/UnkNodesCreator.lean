import Jumanpp.Core.Analysis.AnalysisInput
import Jumanpp.Core.Analysis.LatticeBuilder
import Jumanpp.Core.Dic.DartsTrie
import Jumanpp.Lib.Counters

/-!
# Nodes of the dictionary and of unknown words

The makers of nodes walk over the input with counters of the type `LatticePosition`.  Each of them
adds seeds to the lattice builder, and nodes with the surfaces of unknown words to the context.
-/

namespace Jumanpp.Core.Analysis

open Jumanpp.Lib Jumanpp.Util Jumanpp.Core.Dic

structure UnkNodeConfig where
  base : List Int
  patternPtr : EntryPtr
  replaceWithSurface : List Nat
  patternFields : List Nat
  targetPlaceholder : Option Nat

/-- An extra node, with the configuration and the feature that its content is filled from. -/
structure ExtraNode where
  surface : List UInt8
  templatePtr : EntryPtr
  conf : UnkNodeConfig
  feature : Int

/-- What the makers add to: the extra nodes and the seeds. -/
structure Spawned where
  nodes : List ExtraNode
  seeds : List LatticeNodeSeed

namespace Spawned

variable (s : Spawned)

def appendSeed (ptr : EntryPtr) (start end_ : Nat) : Spawned :=
  { s with seeds := s.seeds ++ [⟨ptr, start, end_⟩] }

/-- `makePtr`: the pointer is `~index`. -/
def makePtr (surface : List UInt8) (conf : UnkNodeConfig) (templatePtr : EntryPtr) (feature : Int) :
    EntryPtr × Spawned :=
  (-s.nodes.length - 1, { s with nodes := s.nodes ++ [⟨surface, templatePtr, conf, feature⟩] })

/-- `makePtr` and then `appendSeed`. -/
def appendUnk (codepoints : List InputCodepoint) (conf : UnkNodeConfig) (notPrefix : Bool)
    (start end_ : Nat) : Spawned :=
  let (ptr, s) := s.makePtr (surfaceOf codepoints start end_) conf conf.patternPtr notPrefix.toInt
  s.appendSeed ptr start end_

/-- All seeds are words inside the input. -/
def Inside (n : Nat) : Prop :=
  ∀ seed ∈ s.seeds, seed.codepointStart < seed.codepointEnd ∧ seed.codepointEnd ≤ n

variable {s} {n start end_ : Nat}

theorem Inside.appendSeed (h : s.Inside n) (hstart : start < end_) (hend : end_ ≤ n)
    (ptr : EntryPtr) : (s.appendSeed ptr start end_).Inside n := by
  intro seed hseed
  obtain hseed | hseed := List.mem_append.mp hseed
  · exact h seed hseed
  · rw [List.mem_singleton.mp hseed]
    exact ⟨hstart, hend⟩

theorem Inside.appendUnk (h : s.Inside n) (hstart : start < end_) (hend : end_ ≤ n)
    (codepoints : List InputCodepoint) (conf : UnkNodeConfig) (notPrefix : Bool) :
    (s.appendUnk codepoints conf notPrefix start end_).Inside n :=
  Inside.appendSeed (s := (s.makePtr _ conf conf.patternPtr notPrefix.toInt).2) h hstart hend _

end Spawned

section Makers

variable (dic : DictionaryEntries) (codepoints : List InputCodepoint) (charClass : CharacterClass)
  (conf : UnkNodeConfig)

namespace DictionaryNodeCreator

def spawnFrom (totalPoints begin_ : Nat) (s : Spawned) : Counted Spawned := do
  let (_, _, s) ← loopUp totalPoints (fun position (trav, s) => do
    let (status, trav) := trav.step dic (codepointAt codepoints position).bytes
    match status with
    | .Ok => do
        let end_ ← narrow (position + 1)
        let s := (dic.entryTraversal trav).foldl (fun s ptr => s.appendSeed ptr begin_ end_) s
        pure (.next position (trav, s))
    | .NoLeaf => pure (.next position (trav, s))
    | .NoNode => pure (.exit position (trav, s))) begin_ (doubleArrayTraversal, s)
  pure s

def spawnNodes (s : Spawned) : Counted Spawned := do
  let totalPoints ← narrow codepoints.length
  let (_, s) ← loopUp totalPoints (fun begin_ s => do
    let s ← spawnFrom dic codepoints totalPoints begin_ s
    pure (.next begin_ s)) 0 s
  pure s

end DictionaryNodeCreator

namespace SingleUnkMaker

def spawnNodes (s : Spawned) : Counted Spawned := do
  let (_, s) ← loopUp codepoints.length (fun i s =>
    let codept := codepointAt codepoints i
    if !codept.hasClass charClass then pure (.next i s)
    else
      match (doubleArrayTraversal.step dic codept.bytes).1 with
      | .Ok => pure (.next i s)
      | .NoNode => do
          let end_ ← narrow (i + 1)
          pure (.next i (s.appendUnk codepoints conf true i end_))
      | .NoLeaf => do
          let end_ ← narrow (i + 1)
          pure (.next i (s.appendUnk codepoints conf false i end_))) 0 s
  pure s

end SingleUnkMaker

namespace ChunkingUnkMaker

/-- The loop of the case `NoNode`: no word of the dictionary begins with the chunk. -/
def spawnRest (i j : Nat) (s : Spawned) : Counted (Nat × Spawned) :=
  loopUp codepoints.length (fun j s =>
    if !(codepointAt codepoints j).hasClass charClass then do
      let j ← narrow codepoints.length
      pure (.exit j s)
    else do
      let end_ ← narrow (j + 1)
      pure (.next j (s.appendUnk codepoints conf true i end_))) j s

def spawnFrom (i : Nat) (s : Spawned) : Counted Spawned := do
  let (_, _, s) ← loopUp codepoints.length (fun j (trav, s) =>
    let cp := codepointAt codepoints j
    if !cp.hasClass charClass then pure (.exit j (trav, s))
    else
      let (status, trav) := trav.step dic cp.bytes
      match status with
      | .NoNode => do
          let (j, s) ← spawnRest codepoints charClass conf i j s
          pure (.next j (trav, s))
      | .NoLeaf => do
          let end_ ← narrow (j + 1)
          pure (.next j (trav, s.appendUnk codepoints conf false i end_))
      | .Ok => pure (.next j (trav, s))) i (doubleArrayTraversal, s)
  pure s

def spawnNodes (s : Spawned) : Counted Spawned := do
  let (_, s) ← loopUp codepoints.length (fun i s =>
    if !(codepointAt codepoints i).hasClass charClass then pure (.next i s)
    else do
      let s ← spawnFrom dic codepoints charClass conf i s
      pure (.next i s)) 0 s
  pure s

end ChunkingUnkMaker

end Makers

/-! ## No counter of the makers wraps -/

section Settles

variable {dic : DictionaryEntries} {codepoints : List InputCodepoint} {charClass : CharacterClass}
  {conf : UnkNodeConfig} {n : Nat} (hlength : codepoints.length = n) {s : Spawned}

theorem Spawned.Inside.foldl_appendSeed {ptrs : List EntryPtr} {start end_ : Nat}
    (h : s.Inside n) (hstart : start < end_) (hend : end_ ≤ n) :
    (ptrs.foldl (fun s ptr => s.appendSeed ptr start end_) s).Inside n := by
  induction ptrs generalizing s with
  | nil => exact h
  | cons ptr ptrs ih => exact ih (h.appendSeed hstart hend ptr)

include hlength

theorem DictionaryNodeCreator.settles_spawnFrom (hn : n < 2 ^ 16) {begin_ : Nat} (h : s.Inside n) :
    Settles 16 (DictionaryNodeCreator.spawnFrom dic codepoints n begin_ s) (·.Inside n) := by
  unfold DictionaryNodeCreator.spawnFrom
  refine Settles.bind (Q := fun r => r.2.2.Inside n) ?_ fun r hr => Settles.pure hr
  refine Settles.mono (Settles.loopUp (P := fun j r => begin_ ≤ j ∧ r.2.Inside n) ?_
    ⟨Nat.le_refl _, h⟩) fun r hr => hr.2
  rintro j ⟨trav, s⟩ hj ⟨hle, hs⟩
  simp only
  split
  · exact (Settles.narrow (by omega)).bind fun end_ hend => Settles.pure
      ⟨Nat.le_refl j, by omega, by omega, hs.foldl_appendSeed (by omega) (by omega)⟩
  · exact Settles.pure ⟨Nat.le_refl j, by omega, by omega, hs⟩
  · exact Settles.pure ⟨hle, hs⟩

theorem DictionaryNodeCreator.settles_spawnNodes (hn : n < 2 ^ 16) (h : s.Inside n) :
    Settles 16 (DictionaryNodeCreator.spawnNodes dic codepoints s) (·.Inside n) := by
  unfold DictionaryNodeCreator.spawnNodes
  refine (Settles.narrow (by omega)).bind ?_
  rintro _ rfl
  rw [hlength]
  refine Settles.bind (Q := fun r => r.2.Inside n) ?_ fun r hr => Settles.pure hr
  refine Settles.loopUp (P := fun _ s => Spawned.Inside s n) ?_ h
  intro j s hj hs
  exact (settles_spawnFrom hlength hn hs).bind fun s' hs' =>
    Settles.pure ⟨Nat.le_refl j, by omega, hs'⟩

theorem SingleUnkMaker.settles_spawnNodes (hn : n < 2 ^ 16) (h : s.Inside n) :
    Settles 16 (SingleUnkMaker.spawnNodes dic codepoints charClass conf s) (·.Inside n) := by
  unfold SingleUnkMaker.spawnNodes
  rw [hlength]
  refine Settles.bind (Q := fun r => r.2.Inside n) ?_ fun r hr => Settles.pure hr
  refine Settles.loopUp (P := fun _ s => Spawned.Inside s n) ?_ h
  intro i s hi hs
  have hseed : ∀ notPrefix, Settles 16 (do
      let end_ ← narrow (i + 1)
      pure (Turn.next i (s.appendUnk codepoints conf notPrefix i end_)))
      (Turn.Keeps 16 i fun _ s => Spawned.Inside s n) :=
    fun notPrefix => (Settles.narrow (by omega)).bind fun end_ hend => Settles.pure
      ⟨Nat.le_refl i, by omega, hs.appendUnk (by omega) (by omega) codepoints conf notPrefix⟩
  simp only
  split
  · exact Settles.pure ⟨Nat.le_refl i, by omega, hs⟩
  · split
    · exact Settles.pure ⟨Nat.le_refl i, by omega, hs⟩
    · exact hseed true
    · exact hseed false

theorem ChunkingUnkMaker.settles_spawnRest (hn : n < 2 ^ 16) {i j : Nat} (hij : i ≤ j) (hj : j ≤ n)
    (h : s.Inside n) : Settles 16 (ChunkingUnkMaker.spawnRest codepoints charClass conf i j s)
      fun r => j ≤ r.1 ∧ r.1 ≤ n ∧ r.2.Inside n := by
  unfold ChunkingUnkMaker.spawnRest
  rw [hlength]
  refine Settles.loopUp (P := fun k s => j ≤ k ∧ k ≤ n ∧ Spawned.Inside s n) ?_ ⟨Nat.le_refl j, hj, h⟩
  rintro k s hk ⟨hjk, -, hs⟩
  split
  · exact (Settles.narrow hn).bind fun k' hk' => Settles.pure ⟨by omega, by omega, hs⟩
  · exact (Settles.narrow (by omega)).bind fun end_ hend => Settles.pure
      ⟨Nat.le_refl k, by omega, by omega, by omega,
        hs.appendUnk (by omega) (by omega) codepoints conf true⟩

/-- After the loop of the case `NoNode` the counter is at the end of the input, and it is counted up
once more. -/
theorem ChunkingUnkMaker.settles_spawnFrom (hn : n + 1 < 2 ^ 16) {i : Nat} (h : s.Inside n) :
    Settles 16 (ChunkingUnkMaker.spawnFrom dic codepoints charClass conf i s) (·.Inside n) := by
  unfold ChunkingUnkMaker.spawnFrom
  rw [hlength]
  refine Settles.bind (Q := fun r => r.2.2.Inside n) ?_ fun r hr => Settles.pure hr
  refine Settles.mono (Settles.loopUp (P := fun j r => i ≤ j ∧ r.2.Inside n) ?_
    ⟨Nat.le_refl i, h⟩) fun r hr => hr.2
  rintro j ⟨trav, s⟩ hj ⟨hij, hs⟩
  simp only
  split
  · exact Settles.pure ⟨hij, hs⟩
  · split
    · exact (settles_spawnRest hlength (by omega) hij hj.le hs).bind fun r hr =>
        Settles.pure ⟨hr.1, by omega, by omega, hr.2.2⟩
    · exact (Settles.narrow (by omega)).bind fun end_ hend => Settles.pure
        ⟨Nat.le_refl j, by omega, by omega,
          hs.appendUnk (by omega) (by omega) codepoints conf false⟩
    · exact Settles.pure ⟨Nat.le_refl j, by omega, by omega, hs⟩

theorem ChunkingUnkMaker.settles_spawnNodes (hn : n + 1 < 2 ^ 16) (h : s.Inside n) :
    Settles 16 (ChunkingUnkMaker.spawnNodes dic codepoints charClass conf s) (·.Inside n) := by
  unfold ChunkingUnkMaker.spawnNodes
  rw [hlength]
  refine Settles.bind (Q := fun r => r.2.Inside n) ?_ fun r hr => Settles.pure hr
  refine Settles.loopUp (P := fun _ s => Spawned.Inside s n) ?_ h
  intro i s hi hs
  split
  · exact Settles.pure ⟨Nat.le_refl i, by omega, hs⟩
  · exact (settles_spawnFrom hlength hn hs).bind fun s' hs' =>
      Settles.pure ⟨Nat.le_refl i, by omega, hs'⟩

end Settles

end Jumanpp.Core.Analysis
