import TimingDiagram.Proofs.Document.Loading
import TimingDiagram.Proofs.Edge.Printing
import TimingDiagram.Proofs.Sample.Signals

/-! Sample documents. A sample is a clock and the signals that are drawn after it, in groups of one size
or in none, with edges between anchors of the signals. It is read back as that, under any options. -/
namespace TimingDiagram
namespace Sample

section Groups

variable {α β : Type}

/-- Consecutive parts of a list, all of one size but the last, which may be smaller. -/
structure Split (size : Nat) (xs : List α) (parts : List (List α)) : Prop where
  whole : parts.flatten = xs
  full : ∀ part ∈ parts.dropLast, part.length = size
  last : ∀ part ∈ parts.getLast?, part ≠ [] ∧ part.length ≤ size

/-- The parts of a list, each of which has a first entry and up to `more` others. -/
def chunks (more : Nat) : List α → List (List α)
  | [] => []
  | x :: rest => (x :: rest.take more) :: chunks more (rest.drop more)
termination_by xs => xs.length
decreasing_by simp only [List.length_drop, List.length_cons]; omega

theorem chunks_map (f : α → β) (more : Nat) (xs : List α) :
    chunks more (xs.map f) = (chunks more xs).map (List.map f) := by
  induction xs using chunks.induct more with
  | case1 => simp [chunks]
  | case2 x rest ih =>
      rw [List.map_cons, chunks, chunks, List.map_cons, ← List.map_drop, ih, List.map_cons,
        List.map_take]

theorem split_chunks (more : Nat) (xs : List α) : Split (more + 1) xs (chunks more xs) := by
  induction xs using chunks.induct more with
  | case1 => exact ⟨by simp [chunks], by simp [chunks], by simp [chunks]⟩
  | case2 x rest ih =>
      rw [chunks]
      have hWhole : ((x :: rest.take more) :: chunks more (rest.drop more)).flatten = x :: rest := by
        rw [List.flatten_cons, ih.whole, List.cons_append, List.take_append_drop]
      cases hRest : chunks more (rest.drop more) with
      | nil =>
          rw [hRest] at hWhole
          exact ⟨hWhole, by simp, by simp⟩
      | cons part parts =>
          rw [hRest] at ih hWhole
          refine ⟨hWhole, ?_, by simpa using ih.last⟩
          rw [List.dropLast_cons_cons]
          refine List.forall_mem_cons.mpr ⟨?_, ih.full⟩
          have hLong : more < rest.length := by
            by_contra hShort
            rw [List.drop_eq_nil_of_le (not_lt.mp hShort), chunks] at hRest
            cases hRest
          rw [List.length_cons, List.length_take, Nat.min_eq_left hLong.le]

def groupName (i : Nat) : String := "g" ++ toString i

theorem grouped_eq (size i : Nat) (values : List Value) :
    grouped size i values = (chunks (size - 1) values).mapIdx fun k part =>
      .list (.text (groupName (i + k)) :: part) := by
  induction values using chunks.induct (size - 1) generalizing i with
  | case1 => simp [grouped, chunks]
  | case2 first rest ih =>
      rw [grouped, chunks, List.mapIdx_cons, ih]
      simp only [Nat.add_zero, Nat.add_assoc, Nat.add_comm 1]
      rfl

end Groups

section Edges

variable {σ : Type} {d : Draws σ}

/-- The edge from one anchor of a sample to another. -/
def edgeOf (a b : Nat) : EdgeSpec := ⟨anchorName a, anchorName b, ⟨.curved, false, true, false⟩, none⟩

/-- A digit belongs to a name. -/
theorem isNameChar_of_isDigit {c : Char} (h : c.isDigit = true) :
    Text.isBlank c = false ∧ c ∉ ['<', '>', '~', '|', '-'] := by
  have hRange : 48 ≤ c.toNat ∧ c.toNat ≤ 57 := by
    simpa [Char.isDigit, UInt32.le_iff_toNat_le] using h
  refine ⟨?_, fun hSymbol => ?_⟩
  · simp [Text.isBlank]
    omega
  · have hFar : ∀ c ∈ ['<', '>', '~', '|', '-'], ¬(48 ≤ c.toNat ∧ c.toNat ≤ 57) :=
      List.forall_iff_forall_mem.mp (by decide)
    exact hFar c hSymbol hRange

theorem isName_anchorName (i : Nat) : EdgeSpec.IsName (anchorName i).toList := by
  have hName : (anchorName i).toList = 'n' :: Nat.toDigits 10 i := by simp [anchorName]
  rw [hName]
  refine ⟨List.cons_ne_nil _ _, List.forall_mem_cons.mpr ⟨by decide, fun c hc => ?_⟩⟩
  exact isNameChar_of_isDigit (Nat.isDigit_of_mem_toDigits (by decide) (by decide) hc)

/-- The edges of a sample join two of its anchors. -/
theorem ofValue_edges (hDraws : d.Bounded) {n : Nat} (h : 2 ≤ n) (count : Nat) (s : σ) :
    ∃ edges, (edgesFrom d n count s).1.mapM EdgeSpec.ofValue = .ok edges ∧
      ∀ e ∈ edges, ∃ a < n, ∃ b < n, a ≠ b ∧ e = edgeOf a b := by
  induction count generalizing s with
  | zero => exact ⟨[], rfl, by simp⟩
  | succ count ih =>
      obtain ⟨hSource, hTarget⟩ := hDraws.pair n s h
      have hOther := hDraws.distinct n s h
      obtain ⟨edges, hEdges, hAll⟩ := ih (d.pair n s).2
      obtain ⟨a, ha⟩ : ∃ a, a = (d.pair n s).1.1 := ⟨_, rfl⟩
      obtain ⟨b, hb⟩ : ∃ b, b = (d.pair n s).1.2 := ⟨_, rfl⟩
      have hWritable : (edgeOf a b).Writable :=
        ⟨isName_anchorName a, isName_anchorName b, rfl, by simp [edgeOf]⟩
      have hText : (edgesFrom d n (count + 1) s).1 =
          .text (edgeOf a b).print :: (edgesFrom d n count (d.pair n s).2).1 := by
        have hPrint : (edgeOf a b).print = "n" ++ toString a ++ "~>n" ++ toString b := by
          apply String.toList_injective
          simp [edgeOf, EdgeSpec.print, anchorName, EdgeStyle.symbol, EdgeShape.symbol]
        rw [edgesFrom, hPrint, ha, hb]
      refine ⟨edgeOf a b :: edges, ?_, List.forall_mem_cons.mpr
        ⟨⟨a, ha ▸ hSource, b, hb ▸ hTarget, by rwa [ha, hb], rfl⟩, hAll⟩⟩
      rw [hText, List.mapM_cons, hWritable.ofValue_text, hEdges]
      rfl

end Edges

section Clock

/-- The symbols of a clock. -/
def clockSymbols : Nat → List Char
  | 0 => []
  | n + 1 => 'p' :: List.replicate n '.'

def clockPart (cycles : Nat) : Draft := ⟨"clk", clockSymbols cycles, none⟩

/-- A clock is one clock symbol and its repeats, if they can be counted and there is room for them. -/
theorem clock_eq [Memory] {cycles : Int} (hLow : 0 ≤ cycles) (hHigh : cycles ≤ Room.countRange)
    (hRoom : cycles ≤ Memory.capacity) :
    clock cycles false false = .ok (String.ofList (clockSymbols cycles.toNat)) := by
  obtain ⟨n, rfl⟩ := Int.eq_ofNat_of_zero_le hLow
  cases n with
  | zero => rfl
  | succ n =>
      have hCopies : Room.copies 1 (((n + 1 : Nat) : Int) - 1) = .ok n := by
        have hCount : (((n + 1 : Nat) : Int) - 1).toNat = n := by omega
        rw [Room.copies, if_neg (by simp; omega), hCount, Room.check, if_neg (by omega)]
        rfl
      rw [clock, if_neg (by omega), Room.repeated]
      simp only [List.length_singleton, hCopies, ok_bind]
      change (.ok (String.ofList ('p' :: (List.replicate n ['.']).flatten)) : Except Fault String) = _
      rw [List.flatten_replicate_singleton]
      rfl

theorem fits_clockPart (cycles : Nat) : (clockPart cycles).Fits cycles where
  known := by
    cases cycles with
    | zero => simp [clockPart, clockSymbols]
    | succ n =>
        refine List.forall_mem_cons.mpr ⟨by decide, fun c hc => ?_⟩
        rw [List.eq_of_mem_replicate hc]
        decide
  opening := by cases cycles <;> simp [clockPart, clockSymbols]
  length := by cases cycles <;> simp [clockPart, clockSymbols]
  anchor := by simp [clockPart]

theorem dataCount_clockSymbols (cycles : Nat) : dataCount (clockSymbols cycles) = 0 := by
  rw [dataCount, List.countP_eq_zero]
  cases cycles with
  | zero => simp [clockSymbols]
  | succ n =>
      refine List.forall_mem_cons.mpr ⟨by decide, fun c hc => ?_⟩
      rw [List.eq_of_mem_replicate hc]
      decide

theorem value_clockPart (cycles : Nat) : (clockPart cycles).value =
    .mapping [("name", .text "clk"), ("wave", .text (String.ofList (clockSymbols cycles)))] := by
  rw [Draft.value, clockPart, dataCount_clockSymbols]
  rfl

end Clock

section Items

variable {K : Type} [Scalar K]

theorem outcome_descendAll {values : List Value} {items : List (Item (Signal K))}
    (h : List.Forall₂ (fun v item => (Document.descend v).outcome = .ok item) values items) :
    (Document.descendAll values).outcome = .ok items := by
  induction h with
  | nil => rfl
  | cons hFirst _ ih =>
      rw [Document.descendAll, Logged.outcome_bind, hFirst, ok_bind, Logged.outcome_bind, ih]
      rfl

theorem outcome_descendAll_value (parts : List Draft) :
    (Document.descendAll (parts.map Draft.value) : Logged (List (Item (Signal K)))).outcome =
      .ok (parts.map fun p => .signal p.signal) := by
  apply outcome_descendAll
  rw [List.forall₂_map_left_iff, List.forall₂_map_right_iff, List.forall₂_same]
  exact fun p _ => outcome_descend_value p

theorem outcome_descend_group (label : String) (parts : List Draft) :
    (Document.descend (.list (.text label :: parts.map Draft.value)) :
        Logged (Item (Signal K))).outcome =
      .ok (.group (some label) (parts.map fun p => .signal p.signal)) := by
  have hNone : Document.firstText (parts.map Draft.value) = none :=
    Document.firstText_eq_none (List.forall_mem_map.mpr fun _ _ => rfl)
  rw [Document.descend, Document.readGroup, hNone]
  simp only [Logged.outcome_bind, outcome_descendAll_value, ok_bind]
  rfl

/-- The items of some signals: groups of them when the size of groups is positive. -/
def itemsOf (groupEvery : Int) (signals : List (Signal K)) : List (Item (Signal K)) :=
  if 0 < groupEvery then
    (chunks (groupEvery.toNat - 1) signals).mapIdx fun i members =>
      .group (some (groupName i)) (members.map .signal)
  else signals.map .signal

/-- What holds of every two things that belong together is carried over to what their places make of
them. -/
theorem forall₂_mapIdx {α β γ δ : Type} {q : α → β → Prop} {r : γ → δ → Prop} {f : Nat → α → γ}
    {g : Nat → β → δ} {l : List α} {m : List β} (h : ∀ i a b, q a b → r (f i a) (g i b))
    (hl : List.Forall₂ q l m) : List.Forall₂ r (l.mapIdx f) (m.mapIdx g) := by
  induction hl generalizing f g with
  | nil => exact .nil
  | cons hFirst _ ih =>
      rw [List.mapIdx_cons, List.mapIdx_cons]
      exact .cons (h 0 _ _ hFirst) (ih fun i => h (i + 1))

/-- The items of a sample are read as they are grouped. -/
theorem outcome_descendAll_items (groupEvery : Int) (parts : List Draft) :
    (Document.descendAll (if 0 < groupEvery then grouped groupEvery.toNat 0 (parts.map Draft.value)
        else parts.map Draft.value) : Logged (List (Item (Signal K)))).outcome =
      .ok (itemsOf groupEvery (parts.map Draft.signal)) := by
  rw [itemsOf]
  split_ifs
  · rw [grouped_eq, chunks_map, chunks_map]
    have hParts : List.Forall₂ (fun values (signals : List (Signal K)) => ∃ part : List Draft,
        values = part.map Draft.value ∧ signals = part.map Draft.signal)
        ((chunks (groupEvery.toNat - 1) parts).map (List.map Draft.value))
        ((chunks (groupEvery.toNat - 1) parts).map (List.map Draft.signal)) := by
      rw [List.forall₂_map_left_iff, List.forall₂_map_right_iff, List.forall₂_same]
      exact fun part _ => ⟨part, rfl, rfl⟩
    refine outcome_descendAll (forall₂_mapIdx ?_ hParts)
    rintro i _ _ ⟨part, rfl, rfl⟩
    rw [Nat.zero_add, outcome_descend_group, List.map_map]
    rfl
  · rw [outcome_descendAll_value, List.map_map]
    rfl

end Items

section Loading

variable {σ : Type} {d : Draws σ} {K : Type} [Scalar K] [Mul K] [LT K] [LE K] [DecidableLT K]
  [DecidableLE K]

/-- Whether the signals of a sample have anchors. -/
def anchored (cycles edges : Int) : Bool := edges != 0 && cycles != 0

/-- A document that is read from a sample. -/
structure IsSample (signals cycles groupEvery edges : Int) (o : Options K) (parts : List Draft)
    (doc : Document K) : Prop where
  drawn : List.Forall₂ (Draft.IsSignal cycles.toNat (anchored cycles edges))
    (List.range signals.toNat) parts
  items : doc.items = .signal (clockPart cycles.toNat).signal ::
    itemsOf groupEvery (parts.map Draft.signal)
  edges : ∀ e ∈ doc.edges, anchored cycles edges = true ∧
    ∃ a < signals.toNat, ∃ b < signals.toNat, a ≠ b ∧ e = edgeOf a b
  options : doc.options = o

/-- What a sample declares is read part by part. -/
theorem outcome_parse {first : Draft} {values : List Value} {items : List (Item (Signal K))}
    {rest : List (String × Value)} {specs : List EdgeSpec} (o : Options K)
    (hItems : (Document.descendAll values).outcome = .ok items)
    (hRest : (rest = [] ∧ specs = []) ∨
      ∃ texts, rest = [("edge", .list texts)] ∧ texts.mapM EdgeSpec.ofValue = .ok specs) :
    (Document.parse (.mapping (("signal", .list (first.value :: values)) :: rest)) o).outcome =
      .ok ⟨.signal first.signal :: items, specs, o, none, none⟩ := by
  refine Document.parse_eq_ok_iff.mpr ⟨_, _, rfl, rfl, ?_, ?_⟩
  · rw [Document.parseItems_eq_descendItems, Document.descendItems, Document.descendAll,
      Logged.outcome_bind, outcome_descend_value, ok_bind, Logged.outcome_bind, hItems]
    rfl
  · rcases hRest with ⟨rfl, rfl⟩ | ⟨texts, rfl, hTexts⟩
    · exact ⟨rfl, rfl, rfl, rfl⟩
    · exact ⟨hTexts, rfl, rfl, rfl⟩

/-- A sample can be drawn where its cycles can be counted and there is room for them, and it can be
read. -/
theorem exists_document [Memory] (hDraws : d.Bounded) {cycles seed : Int} (hCycles : 0 ≤ cycles)
    (hRange : cycles ≤ Room.countRange) (hRoom : cycles ≤ Memory.capacity) (hLow : 0 ≤ seed) (hHigh : seed ≤ largestSeed)
    (signals groupEvery edges : Int) (o : Options K) :
    ∃ raw parts doc, document d signals cycles seed groupEvery edges = .ok raw ∧
      (Document.parse raw o).outcome = .ok doc ∧
      IsSample signals cycles groupEvery edges o parts doc := by
  have hAnchored : anchored cycles edges = true → 0 < cycles := by
    rw [anchored, Bool.and_eq_true, bne_iff_ne, bne_iff_ne]
    omega
  obtain ⟨parts, t, hDrawn, hParts⟩ :=
    exists_signalsFrom hDraws hAnchored signals.toNat 0 (d.ofSeed seed.toNat)
  rw [← List.range_eq_range'] at hParts
  have hItems := outcome_descendAll_items (K := K) groupEvery parts
  have hDocument : document d signals cycles seed groupEvery edges =
      .ok (.mapping (("signal", .list ((clockPart cycles.toNat).value ::
        if 0 < groupEvery then grouped groupEvery.toNat 0 (parts.map Draft.value)
        else parts.map Draft.value)) ::
          if anchored cycles edges && 2 ≤ signals then
            [("edge", .list (edgesFrom d signals.toNat edges.toNat t).1)] else [])) := by
    rw [anchored] at hDrawn ⊢
    rw [document, seeded_eq hLow hHigh, clock_eq hCycles hRange hRoom, value_clockPart]
    simp only [ok_bind, hDrawn]
    split_ifs <;> rfl
  by_cases hJoined : (anchored cycles edges && 2 ≤ signals) = true
  · have hBoth : anchored cycles edges = true ∧ 2 ≤ signals := by simpa using hJoined
    obtain ⟨specs, hSpecs, hEnds⟩ :=
      ofValue_edges hDraws (show 2 ≤ signals.toNat by omega) edges.toNat t
    refine ⟨_, parts, _, hDocument, outcome_parse o hItems (.inr ⟨_, if_pos hJoined, hSpecs⟩), ?_⟩
    exact ⟨hParts, rfl, fun e he => ⟨hBoth.1, hEnds e he⟩, rfl⟩
  · refine ⟨_, parts, _, hDocument, outcome_parse o hItems (.inl ⟨if_neg hJoined, rfl⟩), ?_⟩
    exact ⟨hParts, rfl, by simp, rfl⟩

end Loading

end Sample
end TimingDiagram
