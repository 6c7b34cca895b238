import Jumanpp.Core.Analysis.UnkNodesCreator
import Jumanpp.Lib.Selection
import Jumanpp.Lib.Unique

/-!
# The lattice of characters

`Parse` records for each position of the input the characters that may stand there in place of the
original one, and where a character may be left out.  The traversal looks up all words from a start,
over a frontier of trie states in memory that is used again.
-/

namespace Jumanpp.Core.Analysis

open Jumanpp.Lib Jumanpp.Util Jumanpp.Core.Dic

/-- Flags of 32 bits. -/
abbrev Modifiers := BitVec 32

namespace Modifiers

def EMPTY : Modifiers := 0x00000000
def ORIGINAL : Modifiers := 0x00000001
def REPLACE_SMALLKANA : Modifiers := 0x00000002
def REPLACE : Modifiers := 0x00000004
def DELETE : Modifiers := 0x00000008
def REPLACE_PROLONG : Modifiers := 0x00000010
def DELETE_LAST : Modifiers := 0x00000020
def DELETE_PROLONG : Modifiers := 0x00000040
def DELETE_HASTSUON : Modifiers := 0x0000080
def DELETE_SMALLKANA : Modifiers := 0x00000100
def REPLACE_EROW_WITH_E : Modifiers := 0x00000200

end Modifiers

def ExistFlag (general query : Modifiers) : Bool :=
  general &&& query != Modifiers.EMPTY

structure CharNode where
  cp : InputCodepoint
  type : Modifiers
deriving DecidableEq

def CharNode.hasType (node : CharNode) (type : Modifiers) : Bool :=
  node.type &&& type != Modifiers.EMPTY

/-! ## The tables -/

namespace CharDb

def toCodepoint (c : Char) : InputCodepoint :=
  InputCodepoint.ofBytes (String.utf8EncodeChar c)

/-- All keys in `froms` are mapped to the same character. -/
def codemapsfor (froms : String) (c : Char) : List (Nat × InputCodepoint) :=
  froms.toList.map fun k => (k.toNat, toCodepoint c)

def lower2upper : List (Nat × InputCodepoint) :=
  codemapsfor "ぁ" 'あ' ++ codemapsfor "ぃ" 'い' ++ codemapsfor "ぅ" 'う' ++ codemapsfor "ぇ" 'え' ++
    codemapsfor "ぉ" 'お' ++ codemapsfor "ゎ" 'わ' ++ codemapsfor "ヶ" 'ケ' ++ codemapsfor "ケ" 'ヶ'

def prolongedMap : List (Nat × InputCodepoint) :=
  codemapsfor "かがばまゃ" 'あ' ++ codemapsfor "いきしちにひじけせへめれげぜでべぺ" 'い' ++
    codemapsfor "くすつふゆぐずぷゅおこそとのほもよろごぞどぼぽょ" 'う' ++ codemapsfor "えね" 'い'

def prolongedMapForErow : List (Nat × InputCodepoint) :=
  codemapsfor "えけげせぜてでねへべめれ" 'え'

def lowerList : List Nat := "ぁぃぅぇぉ".toList.map Char.toNat

def lowersfor (froms : String) (c : Char) : List (Nat × Nat) :=
  froms.toList.map fun k => (k.toNat, c.toNat)

/-- The first of two elements with one key is the one that is inserted. -/
def lowerMap : List (Nat × Nat) :=
  lowersfor "かさたなはまやらわがざだばぱ" 'ぁ' ++ lowersfor "いしにりぎじねれぜ" 'ぃ' ++
    lowersfor "うくすふむるよ" 'ぅ' ++ lowersfor "けせてめれぜで" 'ぇ' ++ lowersfor "こそのもよろぞど" 'ぉ'

end CharDb

def DEF_PROLONG_SYMBOL3 : Nat := 'っ'.toNat
def DEF_PROLONG_SYMBOL4 : Nat := 'ッ'.toNat

/-! ## Parsing -/

section Parse

variable (codepoints : List InputCodepoint)

def isRemovableProlong (preIsDeleted : Bool) (pos : Nat) : Bool :=
  if pos < 1 then false
  else if !(codepointAt codepoints pos).hasClass CharacterClass.CHOON then false
  else if preIsDeleted then true
  else IsCompatibleCharClass (codepointAt codepoints (pos - 1)).charClass
    CharacterClass.FAMILY_PROLONGABLE

open CharacterClass in
def alwaysDeleteFor : CharacterClass :=
  SPACE ||| IDEOGRAPHIC_PUNC ||| FIGURE ||| PERIOD ||| MIDDLE_DOT ||| ALPH ||| SYMBOL ||| BRACKET |||
    SLASH ||| COLON ||| COMMA

def CheckRemovableHatsuon (preIsDeleted : Bool) (pos : Nat) : Bool :=
  if pos = 0 then false
  else
    let isLastCharacter := pos + 1 ≥ codepoints.length
    let currentCp := codepointAt codepoints pos
    if currentCp.codepoint ≠ DEF_PROLONG_SYMBOL3 ∧ currentCp.codepoint ≠ DEF_PROLONG_SYMBOL4 then
      false
    else if preIsDeleted then true
    else if isLastCharacter then true
    else
      let nextCp := codepointAt codepoints (pos + 1)
      let prevCharType := (codepointAt codepoints (pos - 1)).charClass
      if IsCompatibleCharClass nextCp.charClass alwaysDeleteFor then true
      else if currentCp.codepoint = nextCp.codepoint then true
      else
        let commonTypes := nextCp.charClass &&& prevCharType &&& currentCp.charClass
        IsCompatibleCharClass commonTypes CharacterClass.FAMILY_FULL_KANA

def CheckRemovableYouon (preIsDeleted : Bool) (pos : Nat) : Bool :=
  if pos = 0 then false
  else
    let currentCp := codepointAt codepoints pos
    let lastCp := codepointAt codepoints (pos - 1)
    CharDb.lowerMap.lookup lastCp.codepoint == some currentCp.codepoint ||
      (preIsDeleted && decide (currentCp.codepoint ∈ CharDb.lowerList) &&
        currentCp.codepoint == lastCp.codepoint)

/-- The replacement of a prolonged sound after the character before it. -/
def CheckSubstituteChoon (pos : Nat) (map : List (Nat × InputCodepoint)) : Option InputCodepoint :=
  if pos > 0 ∧ (codepointAt codepoints pos).hasClass CharacterClass.CHOON then
    map.lookup (codepointAt codepoints (pos - 1)).codepoint
  else none

def CheckSubstituteLower (pos : Nat) : Option InputCodepoint :=
  CharDb.lower2upper.lookup (codepointAt codepoints pos).codepoint

open Modifiers in
/-- The replacements at a position. -/
def substitutions (pos : Nat) : List CharNode :=
  match CheckSubstituteChoon codepoints pos CharDb.prolongedMap with
  | some cp =>
      ⟨cp, REPLACE ||| REPLACE_PROLONG⟩ ::
        match CheckSubstituteChoon codepoints pos CharDb.prolongedMapForErow with
        | some cp2 => [⟨cp2, REPLACE ||| REPLACE_PROLONG ||| REPLACE_EROW_WITH_E⟩]
        | none => []
  | none =>
      match CheckSubstituteLower codepoints pos with
      | some cp => [⟨cp, REPLACE ||| REPLACE_SMALLKANA⟩]
      | none => []

open Modifiers in
/-- The deletion at a position. -/
def deletions (preIsDeleted : Bool) (pos : Nat) : List CharNode :=
  let skipped := InputCodepoint.ofBytes []
  if isRemovableProlong codepoints preIsDeleted pos then [⟨skipped, DELETE ||| DELETE_PROLONG⟩]
  else if CheckRemovableHatsuon codepoints preIsDeleted pos then
    [⟨skipped, DELETE ||| DELETE_HASTSUON⟩]
  else if CheckRemovableYouon codepoints preIsDeleted pos then
    [⟨skipped, DELETE ||| DELETE_SMALLKANA⟩]
  else []

/-- The nodes of the rest of the input from `pos` on. -/
def parseFrom : Nat → Nat → Bool → List (List CharNode)
  | 0, _, _ => []
  | rest + 1, pos, preIsDeleted =>
      if (codepointAt codepoints pos).hasClass CharacterClass.FAMILY_DOUBLE then
        let deleted := deletions codepoints preIsDeleted pos
        (substitutions codepoints pos ++ deleted) :: parseFrom rest (pos + 1) (deleted ≠ [])
      else [] :: parseFrom rest (pos + 1) false

end Parse

structure CharLattice where
  nodeList : List (List CharNode)
  notNormal : Nat

namespace CharLattice

def Parse (codepoints : List InputCodepoint) : CharLattice :=
  let nodeList := parseFrom codepoints codepoints.length 0 false
  ⟨nodeList, (nodeList.flatten.filter fun node => node.type != Modifiers.ORIGINAL).length⟩

def isApplicable (cl : CharLattice) : Bool := cl.notNormal != 0

def nodesAt (cl : CharLattice) (pos : Nat) : List CharNode := cl.nodeList.getD pos []

end CharLattice

/-! ## Traversal -/

structure CLResult where
  entryPtr : EntryPtr
  flags : Modifiers
  start : Nat
  end_ : Nat
deriving DecidableEq

/-- The constructor leaves `lastStatus` as it is in memory. -/
structure TraverasalState where
  traversal : DoubleArrayTraversal
  start : Nat
  end_ : Nat
  allFlags : Modifiers
  lastStatus : TraverseStatus

/-- The states lie in `memory`, and the vectors hold pointers to them. -/
structure CharLattceTraversal where
  memory : List TraverasalState
  states1 : List Nat
  states2 : List Nat
  buffer : List Nat
  result : List CLResult

namespace CharLattceTraversal

def stateAt (memory : List TraverasalState) (ptr : Nat) : TraverasalState :=
  memory.getD ptr ⟨doubleArrayTraversal, 0, 0, Modifiers.EMPTY, .NoNode⟩

section

variable (t : CharLattceTraversal)

/-- Overwrites the last state of the buffer, if there is one. -/
def make (trav : DoubleArrayTraversal) (start end_ : Nat) (flags : Modifiers) :
    Nat × CharLattceTraversal :=
  match t.buffer.getLast? with
  | none =>
      (t.memory.length, { t with memory := t.memory ++ [⟨trav, start, end_, flags, .NoNode⟩] })
  | some data =>
      (data, { t with
        buffer := t.buffer.dropLast
        memory := t.memory.set data
          ⟨trav, start, end_, flags, (stateAt t.memory data).lastStatus⟩ })

/-- `state->…` of a state is changed. -/
def update (ptr : Nat) (f : TraverasalState → TraverasalState) : CharLattceTraversal :=
  { t with memory := t.memory.modify ptr f }

end

section Steps

variable (dic : DictionaryEntries) (inputSize : Nat) (t : CharLattceTraversal)

def tryWalk (pState : Nat) (codepoint : InputCodepoint) (newFlag : Modifiers) (doStep : Bool) :
    Counted CharLattceTraversal := do
  let state := stateAt t.memory pState
  let next ← narrow (state.end_ + 1)
  let size ← narrow inputSize
  let end_ := min next size
  let (nst, t) := t.make state.traversal state.start end_ (state.allFlags ||| newFlag)
  -- what `pState` points to is read again: `make` may have written to memory that is in use
  let (status, trav) :=
    if doStep then (stateAt t.memory nst).traversal.step dic codepoint.bytes
    else ((stateAt t.memory pState).lastStatus, (stateAt t.memory nst).traversal)
  let t := t.update nst fun s => { s with traversal := trav }
  if status = .NoNode then pure { t with buffer := t.buffer ++ [nst] }
  else
    let t := t.update nst fun s => { s with lastStatus := status }
    let node := stateAt t.memory nst
    let found :=
      if status = .Ok ∧ node.allFlags ≠ Modifiers.ORIGINAL then
        let flags := if ExistFlag newFlag Modifiers.DELETE then
            node.allFlags ||| Modifiers.DELETE_LAST
          else node.allFlags
        (dic.entryTraversal node.traversal).map fun ptr =>
          (⟨ptr, flags, node.start, node.end_⟩ : CLResult)
      else []
    pure { t with result := t.result ++ found, states2 := t.states2 ++ [nst] }

/-- The body of the loop over `states1_`. -/
def stepState (ch : InputCodepoint) (extraNodes : List CharNode) (pos : Nat)
    (t : CharLattceTraversal) (ptr : Nat) : Counted CharLattceTraversal := do
  let state := stateAt t.memory ptr
  let t :=
    if state.end_ ≠ pos then
      let (copy, t) := t.make state.traversal state.start state.end_ state.allFlags
      { t with states2 := t.states2 ++ [copy] }
    else t
  let t ← tryWalk dic inputSize t ptr ch Modifiers.ORIGINAL true
  extraNodes.foldlM (fun t n =>
    tryWalk dic inputSize t ptr n.cp n.type (!n.hasType Modifiers.DELETE)) t

end Steps

def sameState (memory : List TraverasalState) (s1 s2 : Nat) : Bool :=
  (stateAt memory s1).end_ == (stateAt memory s2).end_ &&
    (stateAt memory s1).allFlags == (stateAt memory s2).allFlags &&
    (stateAt memory s1).traversal == (stateAt memory s2).traversal

def resultBefore (c1 c2 : CLResult) : Bool :=
  if c1.end_ = c2.end_ then decide (c1.entryPtr < c2.entryPtr) else decide (c1.end_ < c2.end_)

section Lookup

variable (alg : StdAlgorithm) (dic : DictionaryEntries) (cl : CharLattice)
  (input : List InputCodepoint)

def doTraverseStep (pos : Nat) (t : CharLattceTraversal) : Counted CharLattceTraversal :=
  t.states1.foldlM (stepState dic input.length (codepointAt input pos) (cl.nodesAt pos) pos) t

/-- What is done after each step: the vectors are swapped, the old states go to the buffer and equal
neighbours are merged. -/
def swapStates (t : CharLattceTraversal) : CharLattceTraversal :=
  let (kept, dropped) := unique (sameState t.memory) t.states2
  { t with states1 := kept, states2 := [], buffer := t.buffer ++ t.states1 ++ dropped }

/-- The loop over the positions behind the start, for the last `rest` positions of the input. -/
def stepsFrom : Nat → Nat → CharLattceTraversal → Counted CharLattceTraversal
  | 0, _, t => pure t
  | rest + 1, step, t =>
      if t.states1 = [] then pure t
      else do
        let t ← doTraverseStep dic cl input step t
        stepsFrom rest (step + 1) (swapStates t)

/-- `std::sort` and `std::unique`. -/
def sortResults (result : List CLResult) : List CLResult :=
  (unique (fun c1 c2 => c1.entryPtr == c2.entryPtr && c1.end_ == c2.end_)
    (alg.sort resultBefore result)).1

def lookupCandidatesFrom (start : Nat) (t : CharLattceTraversal) :
    Counted (Bool × CharLattceTraversal) :=
  if start > input.length then pure (false, t)
  else
    let t := { t with result := [] }
    let (stat, trav) := doubleArrayTraversal.step dic (codepointAt input start).bytes
    if stat = .NoNode then pure (false, t)
    else do
      let posStart ← narrow start
      let posEnd ← narrow (start + 1)
      let (state, t) := t.make trav posStart posEnd Modifiers.ORIGINAL
      let t := t.update state fun s => { s with lastStatus := stat }
      let t := { t with states1 := t.states1 ++ [state] }
      let t ← stepsFrom dic cl input (input.length - (start + 1)) (start + 1) t
      let t := { t with buffer := t.buffer ++ t.states1, states1 := [] }
      if t.result = [] then pure (false, t)
      else
        let t := { t with result := sortResults alg t.result }
        pure (!t.result.isEmpty, t)

end Lookup

end CharLattceTraversal

end Jumanpp.Core.Analysis
