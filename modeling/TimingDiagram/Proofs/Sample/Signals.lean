import TimingDiagram.Document.Signal
import TimingDiagram.Proofs.Document.Nesting
import TimingDiagram.Proofs.Document.Soundness
import TimingDiagram.Proofs.Sample.Draws
import TimingDiagram.Proofs.Value.Entries

/-! The signals of a sample. Each is read back as it was drawn: its wave has a glyph for each cycle, its
labels are as many as its boxes, and its anchor stands at one of its cycles. -/
namespace TimingDiagram
namespace Sample

section Glyphs

/-- A symbol as a glyph without a label. -/
def glyphOf (c : Char) : Glyph := ⟨c, (Tag.ofSymbol? c).getD .again, none⟩

/-- The symbols of sample waves and of sample clocks. -/
def symbols : List Char := 'p' :: waveSymbols

theorem valid_glyphOf : ∀ c ∈ symbols, (glyphOf c).Valid :=
  List.forall_iff_forall_mem.mp (by decide)

theorem opening_ne_again : ∀ c ∈ openingSymbols, c ≠ '.' :=
  List.forall_iff_forall_mem.mp (by decide)

/-- The symbols that are counted are those of boxes. -/
theorem tag_glyphOf : ∀ c ∈ symbols,
    decide ((glyphOf c).tag = .data) = (c == '=' || ('2' ≤ c && c ≤ '9')) :=
  List.forall_iff_forall_mem.mp (by decide)

theorem spell_glyphOf (cs : List Char) : Glyph.spell (cs.map glyphOf) = cs := by
  induction cs with
  | nil => rfl
  | cons c cs ih =>
      rw [List.map_cons, Glyph.spell_cons, ih]
      rfl

theorem countP_glyphOf {cs : List Char} (h : ∀ c ∈ cs, c ∈ symbols) :
    (cs.map glyphOf).countP (fun g => g.tag = .data) = dataCount cs := by
  rw [List.countP_map, dataCount]
  exact List.countP_congr fun c hc => by rw [Function.comp_apply, tag_glyphOf c (h c hc)]

variable {K : Type} {s : Signal K} {cs : List Char}

theorem spelledBy_glyphOf (hWave : s.wave = String.ofList cs) (h : ∀ c ∈ cs, c ∈ symbols) :
    s.SpelledBy (cs.map glyphOf) where
  valid := List.forall_mem_map.mpr fun c hc => valid_glyphOf c (h c hc)
  wave := by rw [hWave, String.toList_ofList, spell_glyphOf]

/-- A signal whose wave continues nothing and whose anchors are within it is sound. -/
theorem sound_of_symbols (hWave : s.wave = String.ofList cs) (h : ∀ c ∈ cs, c ∈ symbols)
    (hStart : ∀ c ∈ cs.head?, c ≠ '.') (hNode : s.node.EndsAt cs.length) (hCycles : s.cycles = none) :
    s.Sound := by
  refine ⟨cs.map glyphOf, spelledBy_glyphOf hWave h, ?_, by rwa [List.length_map], ?_⟩
  · rw [List.head?_map]
    rintro g hg
    obtain ⟨c, hc, rfl⟩ := Option.mem_map.mp hg
    exact hStart c hc
  · intro length hCut
    rw [Signal.CutAt, hCycles] at hCut
    exact absurd hCut.1 (by simp)

end Glyphs

/-- What is drawn of a signal: its name, the symbols of its wave, and the cycle and the name of its
anchor if it has one. -/
structure Draft where
  name : String
  symbols : List Char
  anchor : Option (Nat × String)

namespace Draft

/-- What the signals of a sample with so many cycles satisfy. -/
structure Fits (cycles : Nat) (p : Draft) : Prop where
  known : ∀ c ∈ p.symbols, c ∈ Sample.symbols
  opening : ∀ c ∈ p.symbols.head?, c ≠ '.'
  length : p.symbols.length = cycles
  anchor : ∀ a ∈ p.anchor, a.1 < cycles ∧ a.2 ≠ ""

def label (j : Nat) : String := "D" ++ toString j

/-- The entry of the anchor of a signal. -/
def anchorEntry (p : Draft) : List (String × Value) :=
  (p.anchor.map fun a => nodeEntry a.1 a.2).getD []

/-- A signal as a sample declares it. -/
def value (p : Draft) : Value :=
  .mapping ([("name", .text p.name), ("wave", .text (String.ofList p.symbols))] ++
    dataEntry (dataCount p.symbols) ++ p.anchorEntry)

/-- The signal that is declared. -/
def signal {K : Type} [Scalar K] (p : Draft) : Signal K where
  name := p.name
  wave := String.ofList p.symbols
  data := (List.range (dataCount p.symbols)).map label
  node := (p.anchor.map fun a => NodeSpec.names (List.replicate a.1 none ++ [some a.2])).getD .absent
  phase := Scalar.ofNumber (.real 0.0)

end Draft

def signalName (i : Nat) : String := "s" ++ toString i

def anchorName (i : Nat) : String := "n" ++ toString i

section Drawing

variable {σ : Type} {d : Draws σ}

theorem seeded_eq {seed : Int} (hLow : 0 ≤ seed) (hHigh : seed ≤ largestSeed) :
    seeded d seed = .ok (d.ofSeed seed.toNat) := by
  rw [seeded, if_neg]
  simp only [Bool.or_eq_true, decide_eq_true_eq]
  omega

/-- A wave with as many symbols as cycles can be drawn. -/
theorem exists_wave (hDraws : d.Bounded) {seed : Int} (hLow : 0 ≤ seed) (hHigh : seed ≤ largestSeed)
    (cycles : Int) (bias : Number) :
    ∃ cs, wave d cycles seed bias = .ok (String.ofList cs) ∧ Playable cs ∧
      cs.length = cycles.toNat := by
  rw [wave]
  split_ifs with hNone
  · exact ⟨[], rfl, ⟨by simp, by simp⟩, by simp [Int.toNat_eq_zero.mpr hNone]⟩
  · rw [seeded_eq hLow hHigh]
    exact ⟨_, rfl, playable_waveFrom hDraws _ bias _, length_waveFrom _ bias _⟩

/-- What is drawn of the `i`-th signal of a sample, which has an anchor if `anchored`. -/
structure Draft.IsSignal (cycles : Nat) (anchored : Bool) (i : Nat) (p : Draft) : Prop where
  fits : p.Fits cycles
  name : p.name = signalName i
  anchor : p.anchor.map Prod.snd = if anchored then some (anchorName i) else none

theorem exists_signalFrom (hDraws : d.Bounded) {cycles : Int} {anchored : Bool}
    (hCycles : anchored = true → 0 < cycles) (i : Nat) (s : σ) :
    ∃ p t, signalFrom d cycles anchored i s = .ok (Draft.value p, t) ∧
      p.IsSignal cycles.toNat anchored i := by
  have hSeed : (d.below (Nat.pow 2 31 - 1) s).1 < Nat.pow 2 31 - 1 :=
    hDraws.below _ s (by decide)
  have hRange : Nat.pow 2 31 - 1 ≤ largestSeed := by decide
  have hHigh : ((d.below (Nat.pow 2 31 - 1) s).1 : Int) ≤ largestSeed := by omega
  obtain ⟨cs, hWave, hPlayable, hLength⟩ :=
    exists_wave hDraws (Int.natCast_nonneg _) hHigh cycles documentBias
  have hKnown : ∀ c ∈ cs, c ∈ symbols := fun c hc => List.mem_cons_of_mem _ (hPlayable.symbols c hc)
  have hOpening : ∀ c ∈ cs.head?, c ≠ '.' := fun c hc => opening_ne_again c (hPlayable.opening c hc)
  rw [signalFrom]
  simp only [hWave, ok_bind, String.toList_ofList]
  cases anchored with
  | false =>
      refine ⟨⟨signalName i, cs, none⟩, (d.below (Nat.pow 2 31 - 1) s).2, ?_,
        ⟨hKnown, hOpening, hLength, by simp⟩, rfl, rfl⟩
      simp only [Bool.false_eq_true, if_false, Draft.value, Draft.anchorEntry, Option.map_none,
        Option.getD_none, List.append_nil]
      rfl
  | true =>
      have hSome := hCycles rfl
      obtain ⟨cycle, hCycle⟩ : ∃ cycle, cycle = d.below cycles.toNat
        (d.below (Nat.pow 2 31 - 1) s).2 := ⟨_, rfl⟩
      have hInside : cycle.1 < cycles.toNat := hCycle ▸ hDraws.below _ _ (by omega)
      have hNamed : anchorName i ≠ "" := by simp [anchorName]
      refine ⟨⟨signalName i, cs, some (cycle.1, anchorName i)⟩, cycle.2, ?_,
        ⟨hKnown, hOpening, hLength, ?_⟩, rfl, rfl⟩
      · simp only [if_true, if_neg (not_le.mpr hSome), ← hCycle, Draft.value, Draft.anchorEntry,
          Option.map_some, Option.getD_some]
        rfl
      · rintro a ⟨⟩
        exact ⟨hInside, hNamed⟩

/-- The signals of a sample can be drawn one after another. -/
theorem exists_signalsFrom (hDraws : d.Bounded) {cycles : Int} {anchored : Bool}
    (hCycles : anchored = true → 0 < cycles) (n i : Nat) (s : σ) :
    ∃ parts t, signalsFrom d cycles anchored n i s = .ok (parts.map Draft.value, t) ∧
      List.Forall₂ (Draft.IsSignal cycles.toNat anchored) (List.range' i n) parts := by
  induction n generalizing i s with
  | zero => exact ⟨[], s, rfl, .nil⟩
  | succ n ih =>
      obtain ⟨p, t, hFirst, hSignal⟩ := exists_signalFrom hDraws hCycles i s
      obtain ⟨parts, u, hRest, hAll⟩ := ih (i + 1) t
      refine ⟨p :: parts, u, ?_, by rw [List.range'_succ]; exact .cons hSignal hAll⟩
      rw [signalsFrom, hFirst, ok_bind]
      simp only [hRest, ok_bind]
      rfl

end Drawing

section Reading

variable {K : Type} [Scalar K] {p : Draft}

theorem dataOf_label (count : Nat) :
    Signal.dataOf (Value.lookupD "data" (dataEntry count) (.list [])) =
      .ok ((List.range count).map Draft.label) := by
  rw [dataEntry]
  split_ifs with hNone
  · rw [hNone]
    rfl
  · change Signal.dataOf (.list ((List.range count).map fun j => .text (Draft.label j))) = _
    rw [Signal.dataOf, mapM_map_of_eq_ok (h := Draft.label) (by intro; rfl)]

/-- The entry of a list of anchors for a place that has one or none. -/
def placeOf : Option String → Value
  | none => .null
  | some name => .text name

theorem nodeOf_places (names : List (Option String)) :
    Signal.nodeOf (.list (names.map placeOf)) = .ok (.names names) := by
  rw [Signal.nodeOf, mapM_map_of_eq_ok (h := id) (by rintro (_ | _) <;> rfl), List.map_id]
  rfl

theorem nodeOf_nodeEntry (cycle : Nat) (name : String) :
    Signal.nodeOf (Value.lookupD "node" (nodeEntry cycle name) .null) =
      .ok (.names (List.replicate cycle none ++ [some name])) := by
  have hPlaces : Value.lookupD "node" (nodeEntry cycle name) .null =
      .list ((List.replicate cycle none ++ [some name]).map placeOf) := by
    simp [nodeEntry, Value.lookupD, Value.lookup, placeOf]
  rw [hPlaces, nodeOf_places]

theorem lookupD_anchorEntry {p : Draft} {key : String} (hKey : key ≠ "node") (default : Value) :
    Value.lookupD key p.anchorEntry default = default := by
  rw [Draft.anchorEntry]
  cases p.anchor with
  | none => rfl
  | some a => simp [nodeEntry, Value.lookupD, Value.lookup_cons, hKey]

theorem nodeOf_anchorEntry (p : Draft) :
    Signal.nodeOf (Value.lookupD "node" p.anchorEntry .null) = .ok (p.signal (K := K)).node := by
  rw [Draft.anchorEntry, Draft.signal]
  cases p.anchor with
  | none => rfl
  | some a => exact nodeOf_nodeEntry a.1 a.2

/-- An entry is found where it is written. -/
theorem lookupD_value (p : Draft) (key : String) (default : Value) :
    Value.lookupD key ([("name", .text p.name), ("wave", .text (String.ofList p.symbols))] ++
        dataEntry (dataCount p.symbols) ++ p.anchorEntry) default =
      if key = "name" then .text p.name
      else if key = "wave" then .text (String.ofList p.symbols)
      else if key = "data" then Value.lookupD key (dataEntry (dataCount p.symbols)) default
      else Value.lookupD key p.anchorEntry default := by
  have hOwn : p.anchorEntry = [] ∨ ∃ value, p.anchorEntry = [("node", value)] := by
    rw [Draft.anchorEntry]
    cases p.anchor with
    | none => exact .inl rfl
    | some a => exact .inr ⟨_, rfl⟩
  have hData : dataEntry (dataCount p.symbols) = [] ∨
      ∃ value, dataEntry (dataCount p.symbols) = [("data", value)] := by
    rw [dataEntry]
    split_ifs
    · exact .inl rfl
    · exact .inr ⟨_, rfl⟩
  rcases hOwn with hOwn | ⟨node, hOwn⟩ <;> rcases hData with hData | ⟨data, hData⟩ <;>
    rw [hOwn, hData] <;> simp only [Value.lookupD, Value.lookup_cons, List.cons_append,
      List.nil_append, Value.lookup_nil] <;> split_ifs <;> simp_all

/-- A signal is read as it was drawn. -/
theorem outcome_descend_value (p : Draft) :
    (Document.descend p.value : Logged (Item (Signal K))).outcome = .ok (.signal p.signal) := by
  have hDeclared : (Signal.declared ([("name", .text p.name),
      ("wave", .text (String.ofList p.symbols))] ++ dataEntry (dataCount p.symbols) ++
        p.anchorEntry) : Except Error (Signal K)) = .ok p.signal := by
    rw [Signal.declared]
    simp only [lookupD_value, String.reduceEq, if_true, if_false, dataOf_label,
      nodeOf_anchorEntry (K := K), lookupD_anchorEntry (show "cycles" ≠ "node" by decide),
      lookupD_anchorEntry (show "period" ≠ "node" by decide),
      lookupD_anchorEntry (show "phase" ≠ "node" by decide)]
    rfl
  rw [Draft.value, Document.descend, Document.readLane, if_neg (by simp), Logged.outcome_bind,
    Signal.ofEntries, hDeclared]
  rfl

theorem sound_signal {cycles : Nat} (h : p.Fits cycles) : (p.signal : Signal K).Sound := by
  refine sound_of_symbols rfl h.known h.opening ?_ rfl
  intro i hi
  apply NodeSpec.anchorAt_eq_none
  rw [Draft.signal]
  cases hAnchor : p.anchor with
  | none => exact Nat.zero_le i
  | some a =>
      have := (h.anchor a hAnchor).1
      have hLength := h.length
      simp only [Option.map_some, Option.getD_some, NodeSpec.toNames, List.length_map,
        List.length_append, List.length_replicate, List.length_singleton]
      omega

/-- The anchor of a signal is declared at its cycle. -/
theorem anchors_signal {cycles : Nat} (h : p.Fits cycles) :
    (p.signal : Signal K).anchors = (p.anchor.map fun a => (a.2, a.1)).toList := by
  rw [Signal.anchors, Draft.signal]
  cases hAnchor : p.anchor with
  | none => rfl
  | some a =>
      have hNamed := (h.anchor a hAnchor).2
      have hNames : (NodeSpec.names (List.replicate a.1 none ++ [some a.2])).toNames =
          List.replicate a.1 none ++ [some a.2] := by
        simp [NodeSpec.toNames, hNamed]
      have hBefore : (List.range a.1).filterMap (fun i =>
          ((List.replicate a.1 none ++ [some a.2])[i]?.join).map fun name => (name, i * 1)) = [] := by
        refine List.filterMap_eq_nil_iff.mpr fun i hi => ?_
        have hi := List.mem_range.mp hi
        simp [List.getElem?_append_left, hi]
      simp only [Option.map_some, Option.getD_some, NodeSpec.anchorAt, hNames, List.length_append,
        List.length_replicate, List.length_singleton, List.range_succ, List.filterMap_append,
        hBefore]
      simp

end Reading

section Labels

variable {K : Type} [Scalar K] {p : Draft} {cycles : Nat} {c : Compiled K}

/-- The tokens of a signal are those of its symbols. -/
theorem tokens_of_compile (h : p.Fits cycles) (hc : (p.signal : Signal K).compile.outcome = .ok c) :
    c.tokens.length = cycles ∧ c.tokens.countP (fun t => t.tag = .data) = dataCount p.symbols ∧
      ∀ t ∈ c.tokens, t.text = none := by
  obtain ⟨_, hTokens, _, _⟩ := Signal.of_compile hc
  have hSpell := spelledBy_glyphOf (s := (p.signal : Signal K)) rfl h.known
  obtain ⟨gs, hValid, hOwn, _, hSequence⟩ := lex_eq_ok hTokens
  obtain rfl : p.symbols.map glyphOf = gs := by
    have hGlyphs := glyphs_eq_ok_iff.mpr ⟨hSpell.valid, hSpell.wave⟩
    rw [glyphs_eq_ok_iff.mpr ⟨hValid, hOwn⟩] at hGlyphs
    exact (Except.ok.inj hGlyphs).symm
  have hFirsts : (entriesOf (p.signal : Signal K).node (p.symbols.map glyphOf)).map Prod.fst =
      p.symbols.map glyphOf := map_fst_entriesOf
  have hTags : c.tokens.map Token.tag = p.symbols.map fun c => (glyphOf c).tag := by
    rw [(Token.of_sequence hSequence).2.1, ← Function.comp_def Glyph.tag Prod.fst, ← List.map_map,
      hFirsts, List.map_map]
    rfl
  refine ⟨?_, ?_, Token.text_of_sequence hSequence fun entry hEntry => ?_⟩
  · rw [← h.length]
    simpa using congrArg List.length hTags
  · calc c.tokens.countP (fun t => t.tag = .data)
      _ = (c.tokens.map Token.tag).countP (fun tag => tag = .data) := by
          rw [List.countP_map]
          rfl
      _ = dataCount p.symbols := by
          rw [hTags, ← countP_glyphOf h.known, List.countP_map, List.countP_map]
          rfl
  · have hGlyph : entry.1 ∈ p.symbols.map glyphOf := hFirsts ▸ List.mem_map_of_mem hEntry
    obtain ⟨c, _, hc⟩ := List.mem_map.mp hGlyph
    rw [← hc]
    rfl

/-- The boxes of a signal are its data tokens, and each has the label of its number. -/
theorem labels_of_compile (h : p.Fits cycles) (hc : (p.signal : Signal K).compile.outcome = .ok c) :
    ((c.segments.filter Segment.isFreshBox).map fun seg => (seg.start, seg.label)) =
      (c.tokens.filter fun t => t.tag = .data).mapIdx fun k t =>
        ((t.index : Int), some (Draft.label k)) := by
  obtain ⟨_, hTokens, hSegments, hLength⟩ := Signal.of_compile hc
  obtain ⟨_, hCount, hPlain⟩ := tokens_of_compile h hc
  have hNumbered := lex_numbered hTokens
  have hLabels := Segment.labels_resolve hNumbered (Int.le_refl 1) (lex_resolved hTokens) hSegments
  have hInside : (c.tokens.filter fun t => t.tag = .data ∧
      (t.index : Int) * 1 < (some (c.length : Int)).getD (c.tokens.length * 1)) =
      c.tokens.filter fun t => t.tag = .data := by
    refine List.filter_congr fun t ht => ?_
    have hBefore : (t.index : Int) * 1 < c.tokens.length * 1 := hNumbered.index_mul_lt le_rfl ht
    rw [hLength]
    simpa [Signal.length, Draft.signal] using fun _ => by omega
  rw [hInside] at hLabels
  refine hLabels.trans (List.ext_getElem? fun k => ?_)
  rw [List.getElem?_map, List.getElem?_mapIdx]
  cases ht : (c.tokens.filter fun t => t.tag = .data)[k]? with
  | none => rfl
  | some t =>
      obtain ⟨hk, _⟩ := List.getElem?_eq_some_iff.mp ht
      rw [← List.countP_eq_length_filter, hCount] at hk
      rw [Option.map_some, Option.map_some, Token.labelOf_eq_getElem? hNumbered hPlain ht, mul_one]
      simp [Draft.signal, hk]

end Labels

end Sample
end TimingDiagram
