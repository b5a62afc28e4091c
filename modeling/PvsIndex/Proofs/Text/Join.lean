import PvsIndex.Proofs.Declaration.Relabel

/-!
# Joining texts

Two texts are joined by a line end.  The line end closes a comment in which the
first text may stop, and nothing solid goes past it, so the tokens of the joined
text are those of the first text and then those of the second one, further down
(`tokenize_joined`).

A text is a row of theories, and two rows make up one.  So the joined text has
the declarations of the first text and then those of the second one, and its
index is what becomes of the index of the first text when the second one is
added to it, lines apart.
-/

namespace PvsIndex

/-- Two texts, each on lines of its own. -/
def joined (first second : List Char) : List Char :=
  first ++ '\n' :: second

/-! ## Places further down -/

namespace Place

/-- The place when there are so many characters more before it, on so many lines. -/
def down (chars lines : Nat) (p : Place) : Place :=
  ⟨p.offset + chars, p.line + lines, p.column⟩

/-- Places of the second text, when `first` and a line end are before it. -/
def below (first : List Char) (p : Place) : Place :=
  p.down (first.length + 1) (first.count '\n' + 1)

theorem down_after (chars lines : Nat) (p : Place) (c : Char) :
    (p.down chars lines).after c = (p.after c).down chars lines := by
  unfold after
  split
  · simp only [down, Nat.add_right_comm]
  · simp only [down, Nat.add_right_comm]

theorem below_afterAll (first : List Char) (p : Place) (text : List Char) :
    (p.below first).afterAll text = (p.afterAll text).below first := by
  induction text generalizing p with
  | nil => rfl
  | cons c text ih => rw [afterAll_cons, afterAll_cons, ← ih, below, down_after, below]

theorem start_below (first : List Char) : start.below first = (start.afterAll first).after '\n' := by
  have offset := offset_afterAll start first
  have line := line_afterAll start first
  rw [after, if_pos rfl, offset, line, below, down, start]
  simp only [Nat.add_assoc, Nat.zero_add]

/-- Reading on from the first text leads to the places below it. -/
theorem below_start (first text : List Char) :
    (start.afterAll text).below first = start.afterAll (joined first text) := by
  rw [← below_afterAll, start_below, joined, afterAll_append, afterAll_cons]

end Place

/-! ## Tokens -/

theorem Yields.moveBelow (first : List Char) {p : Place} {text : List Char} {qs : List Piece}
    (h : Yields p text qs) :
    Yields (p.below first) text (qs.map (Piece.carry (Place.below first))) := by
  induction h with
  | done p => exact .done _
  | blank blank _ ih =>
      refine .blank blank ?_
      rwa [Place.below, Place.down_after]
  | comment one_line stop _ ih =>
      refine .comment one_line stop ?_
      rwa [Place.below_afterAll]
  | solid solid front _ ih =>
      refine .solid_carry (Place.below first) solid front ?_
      rwa [Place.below_afterAll]

/-- The solid pieces of two texts with a line end between them. -/
theorem Yields.joined {p : Place} {first second : List Char} {qs rs : List Piece}
    (h : Yields p first qs) (behind : Yields ((p.afterAll first).after '\n') second rs) :
    Yields p (joined first second) (qs ++ rs) := by
  unfold PvsIndex.joined
  induction h with
  | done p => exact .blank (by decide) behind
  | blank blank _ ih => exact .blank blank (ih behind)
  | @comment p line rest qs one_line stop _ ih =>
      rw [Place.afterAll_append] at behind
      rw [List.append_assoc]
      refine .comment one_line ?_ (ih behind)
      cases rest with
      | nil => simp
      | cons c rest => exact stop
  | @solid q rest qs solid front _ ih =>
      rw [Place.afterAll_append] at behind
      obtain ⟨c, cs, text, no_gap⟩ := front.head_of_solid solid
      have nonblank : ∃ c ∈ q.text ++ rest, isBlank c = false :=
        ⟨c, by simp [text], Shape.isBlank_of_isGap no_gap⟩
      rw [List.append_assoc]
      exact .solid solid (front.newline nonblank second) (ih behind)

/-- The tokens of both texts, the second ones further down. -/
theorem tokenize_joined {first second : List Char} {ts us : List Token}
    (tokens : tokenize first = .ok ts) (tokens' : tokenize second = .ok us) :
    tokenize (joined first second) = .ok (ts ++ us.map (Token.carry (Place.below first))) := by
  have below := (yields_solids second).moveBelow first
  rw [Place.start_below] at below
  have whole := ((yields_solids first).joined below).solids_eq
  rw [tokenize_eq_ok_iff] at tokens tokens' ⊢
  rw [whole, tokens, tokens', List.map_append, Piece.map_carry_token]

/-! ## Theories -/

theorem Reads.star_append {e : Ebnf} {w v : List Token} {parts more : List ParseTree}
    (first : Reads (.star e) w parts) (second : Reads (.star e) v more) :
    Reads (.star e) (w ++ v) (parts ++ more) := by
  refine Reads.star_induction (P := fun v more => Reads (.star e) (w ++ v) (parts ++ more))
    ?_ ?_ second rfl
  · rwa [List.append_nil, List.append_nil]
  · intro v u more last before one
    rw [← List.append_assoc, ← List.append_assoc]
    exact .more before one

/-- Theories and then theories are theories. -/
theorem admits_start_append {w v : List Token} (hw : Ebnf.Admits (.symbol (.phrase .start)) w)
    (hv : Ebnf.Admits (.symbol (.phrase .start)) v) :
    Ebnf.Admits (.symbol (.phrase .start)) (w ++ v) := by
  obtain ⟨_, first⟩ := hw
  obtain ⟨_, second⟩ := hv
  obtain ⟨_, _, theories⟩ := first.of_phrase
  obtain ⟨_, _, others⟩ := second.of_phrase
  cases others with
  | plus many one =>
      have all := Reads.plus (theories.star_of_plus.star_append many) one
      rw [List.append_assoc] at all
      exact ⟨_, .phrase all⟩

/-- What is declared in both is declared in each. -/
theorem declared_append {w v : List Token} (hw : Ebnf.Admits (.symbol (.phrase .start)) w)
    (hv : Ebnf.Admits (.symbol (.phrase .start)) v) :
    declared [] (w ++ v) = declared [] w ++ declared [] v := by
  have ⟨_, first⟩ := hw
  have ⟨_, second⟩ := hv
  obtain ⟨ds, agrees⟩ := (reads_iff_derives.mp first).agrees_start
  obtain ⟨es, agrees'⟩ := (reads_iff_derives.mp second).agrees_start
  have both := agrees.append agrees' hw hv fun _ _ => admits_start_append
  rw [both.declared_eq, agrees.declared_eq, agrees'.declared_eq]

/-! ## Declarations -/

/-- The descriptor of a declaration that is so many lines further down. -/
def Descriptor.down (lines : Nat) (d : Descriptor) : Descriptor :=
  { d with line := d.line + lines }

/-- A descriptor below so many lines, counted from there; others are left alone. -/
def Descriptor.up (lines : Nat) (d : Descriptor) : Descriptor :=
  if d.line ≤ lines then d else { d with line := d.line - lines }

theorem Descriptor.identifier_up (lines : Nat) (d : Descriptor) :
    (d.up lines).identifier = d.identifier := by
  unfold up
  split
  · rfl
  · rfl

theorem Descriptor.up_down {lines : Nat} {d : Descriptor} (h : 1 ≤ d.line) :
    (d.down lines).up lines = d := by
  have below : ¬ d.line + lines ≤ lines := by omega
  rw [up, down, if_neg below, Int.add_sub_cancel]

theorem name_mem_of_declared {earlier ts : List Token} :
    ∀ d ∈ declared earlier ts, d.name ∈ ts := by
  induction ts generalizing earlier with
  | nil => exact nofun
  | cons t ts ih =>
      intro d hd
      rcases List.mem_append.mp hd with here | later
      · obtain ⟨kind, _, rfl⟩ := Option.map_eq_some_iff.mp (Option.mem_toList.mp here)
        exact List.mem_cons_self
      · exact List.mem_cons_of_mem _ (ih d later)

section Declarations

variable {first second : List Char} {ts us : List Token}

/-- In the first text everything stays as it is. -/
theorem Declared.descriptor_joined (tokens : tokenize first = .ok ts) {d : Declared}
    (inside : d.part ⊆ ts) (second : List Char) :
    d.descriptor (joined first second) = d.descriptor first := by
  have text : (d.relabel (Token.carry id)).text (joined first second) = id (d.text first) :=
    d.text_carry id id tokens inside rfl (fun _ _ => rfl) fun a b _ hb =>
      TokenStream.slice_of_fronts [] a (hb.trans (List.prefix_append _ _))
  have same : d.relabel (Token.carry id) = d := by
    have keep : Token.carry id = id := rfl
    rw [keep, relabel, List.map_id]
    rfl
  rw [same] at text
  rw [descriptor, text]
  rfl

/-- In the second text only the line of a declaration changes. -/
theorem Declared.descriptor_below (tokens : tokenize second = .ok us) {d : Declared}
    (inside : d.part ⊆ us) (first : List Char) :
    (d.relabel (Token.carry (Place.below first))).descriptor (joined first second) =
      (d.descriptor second).down (first.count '\n' + 1) := by
  have text := d.text_carry (Place.below first) id tokens inside rfl
    (fun t _ => t.start.below_afterAll first t.text) (by
      intro a b _ hb
      have front : joined first b <+: joined first second := by
        obtain ⟨rest, rfl⟩ := hb
        exact ⟨rest, by simp [joined]⟩
      rw [Place.below_start, Place.below_start, TokenStream.slice_of_fronts [] _ front, joined,
        joined, List.drop_append]
      simp)
  rw [descriptor, text]
  simp only [relabel, Token.carry, Place.below, Place.down, descriptor, Descriptor.down]
  rw [Int.natCast_add]
  rfl

/-- The additions of a text are on its lines. -/
theorem line_of_addition (tokens : tokenize first = .ok ts) :
    ∀ a ∈ (declared [] ts).map (Declared.addition first),
      1 ≤ a.descriptor.line ∧ a.descriptor.line ≤ (first.count '\n' + 1 : Nat) := by
  intro a ha
  obtain ⟨d, hd, rfl⟩ := List.mem_map.mp ha
  have lines := (tokenize_isIn tokens d.name (name_mem_of_declared d hd)).1.line
  have same : (d.addition first).descriptor.line = d.name.start.line := rfl
  rw [same]
  omega

end Declarations

/-! ## Indexes -/

/-- What was found without a fault may be changed before it is added. -/
theorem Index.absorb_map_ok (g : Addition → Addition) (as : List Addition) (index : Index) :
    index.absorb ((as.map .ok).map (Except.map g)) = (index.addAll (as.map g), none) := by
  rw [← absorb_ok, List.map_map, List.map_map]
  rfl

/-- What was added further down can be told by its line, and moved back up. -/
theorem Index.relabel_up {lines : Nat} {as bs : List Addition}
    (above : ∀ a ∈ as, a.descriptor.line ≤ lines) (below : ∀ b ∈ bs, 1 ≤ b.descriptor.line) :
    ((empty.addAll as).addAll (bs.map (Addition.relabel (Descriptor.down lines)))).relabel
      (Descriptor.up lines) = (empty.addAll as).addAll bs := by
  have keep : as.map (Addition.relabel (Descriptor.up lines)) = as.map id := by
    refine List.map_congr_left fun a ha => ?_
    rw [Addition.relabel, Descriptor.up, if_pos (above a ha)]
    rfl
  have back : (bs.map (Addition.relabel (Descriptor.down lines))).map
      (Addition.relabel (Descriptor.up lines)) = bs.map id := by
    rw [List.map_map]
    refine List.map_congr_left fun b hb => ?_
    rw [Function.comp_apply, Addition.relabel, Addition.relabel, Descriptor.up_down (below b hb)]
    rfl
  rw [List.map_id] at keep back
  have names := Descriptor.identifier_up lines
  rw [relabel_addAll names, relabel_addAll names, keep, back]
  rfl

section Joined

variable {first second : List Char} {root root' : Node} {stream stream' : TokenStream}
  (parsed : parse first = .tree root stream) (parsed' : parse second = .tree root' stream')

include parsed parsed'

/-- The joined text has a tree over the tokens of both texts. -/
theorem parse_joined :
    ∃ root, parse (joined first second) = .tree root ⟨joined first second,
        stream.tokens ++ stream'.tokens.map (Token.carry (Place.below first))⟩ ∧
      declared [] (stream.tokens ++ stream'.tokens.map (Token.carry (Place.below first))) =
        declared [] stream.tokens ++
          (declared [] stream'.tokens).map (Declared.relabel (Token.carry (Place.below first))) := by
  obtain ⟨_, tokens, _, derived, _⟩ := parse_eq_tree_iff.mp parsed
  obtain ⟨_, tokens', _, derived', _⟩ := parse_eq_tree_iff.mp parsed'
  have here : Ebnf.Admits (.symbol (.phrase .start)) stream.tokens :=
    ⟨_, reads_iff_derives.mpr derived⟩
  have below : Ebnf.Admits (.symbol (.phrase .start))
      (stream'.tokens.map (Token.carry (Place.below first))) := by
    have moved := derived'.relabel (f := Token.carry (Place.below first)) fun _ => rfl
    exact ⟨_, reads_iff_derives.mpr moved⟩
  obtain ⟨_, reading⟩ := admits_start_append here below
  obtain ⟨_, root, _, _, whole⟩ := parse_eq_tree_of_reads (tokenize_joined tokens tokens') reading
  exact ⟨root, whole, by rw [declared_append here below, declared_carry]⟩

/-- What is added for the joined text: what is added for the first text, and then
what is added for the second one, with other lines. -/
theorem additions_joined :
    (declared [] stream.tokens ++ (declared [] stream'.tokens).map
        (Declared.relabel (Token.carry (Place.below first)))).map
      (Declared.addition (joined first second)) =
    (declared [] stream.tokens).map (Declared.addition first) ++
      ((declared [] stream'.tokens).map (Declared.addition second)).map
        (Addition.relabel (Descriptor.down (first.count '\n' + 1))) := by
  obtain ⟨_, tokens, _⟩ := parse_eq_tree_iff.mp parsed
  obtain ⟨_, tokens', _⟩ := parse_eq_tree_iff.mp parsed'
  rw [List.map_append, List.map_map, List.map_map]
  congr 1
  · refine List.map_congr_left fun d hd => ?_
    have inside := ((allFindings_parsed parsed).2 d hd).subset
    exact congrArg (Addition.mk d.kind) (d.descriptor_joined tokens inside second)
  · refine List.map_congr_left fun d hd => ?_
    have inside := ((allFindings_parsed parsed').2 d hd).subset
    exact congrArg (Addition.mk d.kind) (d.descriptor_below tokens' inside first)

end Joined

/-- Joining texts is indexing them in turn.  The joined text is accepted, and its
index is what becomes of the index of the first text when the second one is
added, only that lines in the second text are counted from the beginning of the
first one. -/
theorem joined_indexed_in_turn (reportDuplicates : Bool) (first second : List Char)
    (clean : (parse first).diagnostics = []) (clean' : (parse second).diagnostics = []) :
    (parse (joined first second)).diagnostics = [] ∧
      ∃ root ts root' ts' before threaded index duplicates,
        parse first = .tree root ts ∧ parse second = .tree root' ts' ∧
        Index.empty.walk root ts = (before, none) ∧ before.walk root' ts' = (threaded, none) ∧
        Report.ofSource reportDuplicates (joined first second) =
          .ok (.indexed index duplicates) ∧
        before.absorb ((root'.allFindings ts').map
          (Except.map (Addition.relabel (Descriptor.down (first.count '\n' + 1))))) =
            (index, none) ∧
        threaded = index.relabel (Descriptor.up (first.count '\n' + 1)) := by
  obtain ⟨root, stream, parsed⟩ := parse_diagnostics_eq_nil_iff.mp clean
  obtain ⟨root', stream', parsed'⟩ := parse_diagnostics_eq_nil_iff.mp clean'
  obtain ⟨_, tokens, _⟩ := parse_eq_tree_iff.mp parsed
  obtain ⟨_, tokens', _⟩ := parse_eq_tree_iff.mp parsed'
  obtain ⟨whole, parsed_whole, scanned⟩ := parse_joined parsed parsed'
  obtain ⟨duplicates, report⟩ := Report.ofSource_parsed parsed_whole reportDuplicates
  have found := (allFindings_parsed parsed').1
  rw [scanned, Index.ofDeclared_eq, additions_joined parsed parsed', Index.addAll_append] at report
  have walked := Index.absorb_ok ((declared [] stream.tokens).map (Declared.addition first)) .empty
  rw [← (allFindings_parsed parsed).1] at walked
  refine ⟨by rw [parsed_whole, Parsed.diagnostics], root, stream, root', stream', _, _, _,
    duplicates, parsed, parsed', walked, ?_, report, ?_, (Index.relabel_up ?_ ?_).symm⟩
  · rw [Index.walk, found, Index.absorb_ok]
  · rw [found, Index.absorb_map_ok]
  · exact fun a ha => (line_of_addition tokens a ha).2
  · exact fun a ha => (line_of_addition tokens' a ha).1

theorem joined_indexed_in_turn_smallTheory :
    (parse (joined smallTheory smallTheory)).diagnostics = [] :=
  (joined_indexed_in_turn true smallTheory smallTheory diagnostics_smallTheory
    diagnostics_smallTheory).1

end PvsIndex
