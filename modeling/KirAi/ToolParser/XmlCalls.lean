/-
# Calls in the XML form are read as they were written

A model of the Qwen family writes a call as a `<function=…>` tag with one `<parameter=…>` tag
for each argument (`xmlCallText`). The values are texts of a program, so they may contain any
markup but the three tags at which a value, a call or the text before the calls ends.

The parser looks for the close tag of the function in the whole body, so a value that
contains this tag ends the call in its middle, and the call is refused for a parameter that
is not closed. Such a value apart, and names that contain a tag or a `>`, a call is read as it
was written (`xml_call_decoded_iff`); a value that is read up to `</parameter>`, as the parser
for streams does it, could contain the tag.

Key definitions: `xmlCallText`, `XmlEntries`, `Decoded`, `ReadableCall`.
Key theorems: `parseXmlParameters_entries`, `parseXmlCall_closed`, `xml_call_decoded_iff`.
-/
import KirAi.ToolParser.BlockGrammar

namespace KirAi.ToolParser

open Lib Lib.Text
open KirAi.Runtime (Str ToolCall ToolCallFunction ParsedAssistant isWhitespace trim trimStart)

/-! ### A written call -/

/-- A parameter, from its key and its value. -/
def xmlParameter (entry : Str × Str) : Str :=
  parameterStart ++ (entry.1 ++ ['>'] ++ (entry.2 ++ parameterEnd))

/-- What is written after the start of the function tag, up to the close tag of the block. -/
def xmlCallRest (name : Str) (entries : List (Str × Str)) : Str :=
  name ++ ['>'] ++ (entries.flatMap xmlParameter ++ functionEnd)

def xmlCallText (name : Str) (entries : List (Str × Str)) : Str :=
  toolCallStart ++ (functionStart ++ (xmlCallRest name entries ++ toolCallEnd))

/-- The arguments of a written call. -/
def xmlArguments (entries : List (Str × Str)) : List (String × Json) :=
  entries.map fun entry => (String.ofList entry.1, .string (String.ofList entry.2))

/-- Distinct keys without `<` and `>`, and values without the tags at which they would end. -/
structure XmlEntries (entries : List (Str × Str)) : Prop where
  distinct : (entries.map (·.1)).Nodup
  keys : ∀ entry ∈ entries, '<' ∉ entry.1 ∧ '>' ∉ entry.1
  values : ∀ entry ∈ entries, ¬parameterEnd <:+: entry.2 ∧ ¬toolCallEnd <:+: entry.2 ∧
    ¬thinkStart <:+: entry.2

/-- The parser finds one call, with the name and the arguments that were written. -/
def Decoded (E : Env) (name : Str) (entries : List (Str × Str)) : Prop :=
  ∃ parsed, QwenParser.parseComplete E (xmlCallText name entries) = .ok parsed ∧
    parsed.toolCalls.map (·.function) = [⟨name, .object (xmlArguments entries)⟩]

/-- The name does not end the function tag, the call or the text, and no value the function. -/
structure ReadableCall (name : Str) (entries : List (Str × Str)) : Prop where
  closed : '>' ∉ name
  tags : ∀ tag ∈ [thinkStart, toolCallEnd, functionEnd], ¬tag <:+: name ++ ['>']
  values : ∀ entry ∈ entries, ¬functionEnd <:+: entry.2

/-! ### Tags in a written call -/

theorem heads_of_all {r : Str} (h : r.head?.all (· == '<') = true) : ∀ a ∈ r.head?, a = '<' := by
  intro a ha
  rw [Option.mem_def.1 ha] at h
  exact beq_iff_eq.1 h

theorem head?_flatMap_append {entries : List (Str × Str)} {r : Str} (hr : ∀ a ∈ r.head?, a = '<') :
    ∀ a ∈ (entries.flatMap xmlParameter ++ r).head?, a = '<' := by
  cases entries with
  | nil => exact hr
  | cons entry entries =>
    intro a ha
    exact (Option.some.inj (show some '<' = some a from ha)).symm

/-- A tag that is not one of a parameter is in one of the values, or in what follows. -/
theorem IsTag.infix_parameters {p : Str} (hp : IsTag p) (hopen : Distinct p parameterStart)
    (hclose : Distinct p parameterEnd) {r : Str} (hr : ∀ a ∈ r.head?, a = '<') :
    ∀ {entries : List (Str × Str)}, (∀ entry ∈ entries, '<' ∉ entry.1) →
      (p <:+: entries.flatMap xmlParameter ++ r ↔ (∃ entry ∈ entries, p <:+: entry.2) ∨ p <:+: r)
  | [], _ => by simp
  | (key, value) :: entries, hkeys => by
    have hkey : '<' ∉ key ++ ['>'] := by
      have h := hkeys _ (List.mem_cons_self ..)
      simpa using h
    have ih := infix_parameters hp hopen hclose hr fun e he => hkeys e (List.mem_cons_of_mem _ he)
    have hjoin : ((key, value) :: entries).flatMap xmlParameter ++ r =
        parameterStart ++ (key ++ ['>'] ++ (value ++ (parameterEnd ++
          (entries.flatMap xmlParameter ++ r)))) := by
      simp only [List.flatMap_cons, xmlParameter, List.append_assoc]
    rw [hjoin, hp.infix_past (by decide) hopen, hp.infix_skip hkey,
      hp.infix_append (by
        intro a ha
        exact (Option.some.inj (show some '<' = some a from ha)).symm),
      hp.infix_past (by decide) hclose, ih]
    simp only [List.mem_cons, exists_eq_or_imp, or_assoc]

/-- A tag in a written call is in its name or in one of its values. -/
theorem IsTag.infix_xmlCallRest {p name : Str} {entries : List (Str × Str)} (hp : IsTag p)
    (hopen : Distinct p parameterStart) (hclose : Distinct p parameterEnd) {r : Str}
    (hr : ∀ a ∈ r.head?, a = '<') (hkeys : ∀ entry ∈ entries, '<' ∉ entry.1) :
    p <:+: name ++ ['>'] ++ (entries.flatMap xmlParameter ++ r) ↔
      p <:+: name ++ ['>'] ∨ (∃ entry ∈ entries, p <:+: entry.2) ∨ p <:+: r := by
  rw [hp.infix_append (head?_flatMap_append hr), hp.infix_parameters hopen hclose hr hkeys]

/-! ### Reading a call -/

/-- The loop takes a written parameter into the map. -/
theorem parseXmlParameters_entry {entry : Str × Str} (hkey : '>' ∉ entry.1)
    (hvalue : ¬parameterEnd <:+: entry.2) (fuel : ℕ) (rest : Str) (map : List (String × Json)) :
    parseXmlParameters (fuel + 1) (xmlParameter entry ++ rest) map =
      parseXmlParameters fuel rest
        (insertKey map (String.ofList entry.1) (.string (String.ofList entry.2))) := by
  obtain ⟨key, value⟩ := entry
  have hstart : cut parameterStart (xmlParameter (key, value) ++ rest) =
      some ([], key ++ ['>'] ++ (value ++ parameterEnd ++ rest)) := by
    have h := IsTag.cut_append (p := parameterStart) (u := []) (by decide) (by decide)
      (key ++ ['>'] ++ (value ++ parameterEnd ++ rest))
    rw [← h]
    simp only [xmlParameter, List.append_assoc, List.nil_append]
  have hgt : cut ['>'] (key ++ ['>'] ++ (value ++ parameterEnd ++ rest)) =
      some (key, value ++ parameterEnd ++ rest) := cut_append (find_singleton_append_iff.2 hkey)
  have hend : cut parameterEnd (value ++ parameterEnd ++ rest) = some (value, rest) :=
    IsTag.cut_append (by decide) hvalue rest
  rw [parseXmlParameters_step, hstart]
  simp only [hgt, hend]

/-- The loop takes written parameters into the map, one after another. -/
theorem parseXmlParameters_entries : ∀ (entries : List (Str × Str)) (map : List (String × Json))
    (fuel : ℕ) (rest : Str),
    (∀ entry ∈ entries, '>' ∉ entry.1 ∧ ¬parameterEnd <:+: entry.2) →
    parseXmlParameters (fuel + entries.length) (entries.flatMap xmlParameter ++ rest) map =
      parseXmlParameters fuel rest ((xmlArguments entries).foldl
        (fun map entry => insertKey map entry.1 entry.2) map)
  | [], _, _, _, _ => rfl
  | entry :: entries, map, fuel, rest, hentries => by
    obtain ⟨hkey, hvalue⟩ := hentries _ (List.mem_cons_self ..)
    rw [List.flatMap_cons, List.append_assoc, List.length_cons, ← Nat.add_assoc,
      parseXmlParameters_entry hkey hvalue,
      parseXmlParameters_entries entries _ fuel rest fun e he => hentries e (List.mem_cons_of_mem _ he)]
    rfl

/-- A value without its close tag is refused. -/
theorem parseXmlParameters_open {key value : Str} (hkey : '>' ∉ key)
    (hvalue : ¬parameterEnd <:+: value) (fuel : ℕ) (map : List (String × Json)) :
    parseXmlParameters (fuel + 1) (parameterStart ++ (key ++ ['>'] ++ value)) map =
      malformedTool "missing qwen parameter close tag" := by
  have hstart : cut parameterStart (parameterStart ++ (key ++ ['>'] ++ value)) =
      some ([], key ++ ['>'] ++ value) :=
    IsTag.cut_append (u := []) (by decide) (by decide) (key ++ ['>'] ++ value)
  have hgt : cut ['>'] (key ++ ['>'] ++ value) = some (key, value) :=
    cut_append (find_singleton_append_iff.2 hkey)
  rw [parseXmlParameters_step, hstart]
  simp only [hgt, cut_eq_none_of_free hvalue]

/-- Distinct keys are inserted at the end. -/
theorem foldl_insertKey {β : Type} {entries map : List (String × β)}
    (h : ((map ++ entries).map (·.1)).Nodup) :
    entries.foldl (fun map entry => insertKey map entry.1 entry.2) map = map ++ entries := by
  induction entries generalizing map with
  | nil => exact (List.append_nil map).symm
  | cons entry entries ih =>
    have hfresh : entry.1 ∉ map.map (·.1) := by
      intro hmem
      rw [List.map_append, List.map_cons, List.nodup_append] at h
      exact h.2.2 entry.1 hmem entry.1 (List.mem_cons_self ..) rfl
    have hassoc : map ++ entry :: entries = map ++ [entry] ++ entries := by simp
    rw [hassoc] at h
    rw [List.foldl_cons, insertKey_of_notMem hfresh, hassoc]
    exact ih h

theorem length_le_flatMap (entries : List (Str × Str)) :
    entries.length ≤ (entries.flatMap xmlParameter).length := by
  induction entries with
  | nil => exact Nat.zero_le _
  | cons entry entries ih =>
    have hpos : 0 < (xmlParameter entry).length :=
      List.length_pos_of_ne_nil (List.append_ne_nil_of_left_ne_nil (by decide) _)
    rw [List.flatMap_cons, List.length_append, List.length_cons]
    omega

/-- A function tag that is closed before its close tag: what is between the two is read. -/
theorem parseXmlCall_closed (E : Env) {name params : Str} (hname : '>' ∉ name)
    (htag : ¬functionEnd <:+: name ++ ['>']) (hparams : ¬functionEnd <:+: params)
    (hhead : ∀ a ∈ params.head?, a = '<') (rest : Str) (index : ℕ) :
    parseXmlCall E (functionStart ++ (name ++ ['>'] ++ (params ++ functionEnd ++ rest))) index =
      (parseXmlParameters (params.length + 1) params []).bind fun map =>
        .ok ⟨E.generatedToolCallId index, .function, ⟨name, .object map⟩⟩ := by
  have hstart : find functionStart
      (functionStart ++ (name ++ ['>'] ++ (params ++ functionEnd ++ rest))) = some 0 :=
    find_eq_some_iff.2 ⟨⟨[], _, rfl, rfl⟩, fun j _ => Nat.zero_le j⟩
  have htail : sliceFrom (functionStart ++ (name ++ ['>'] ++ (params ++ functionEnd ++ rest)))
      (0 + len functionStart) = .ok (name ++ ['>'] ++ (params ++ functionEnd ++ rest)) :=
    sliceFrom_eq functionStart _ rfl (Nat.zero_add _)
  have hgt : find ['>'] (name ++ ['>'] ++ (params ++ functionEnd ++ rest)) = some (len name) :=
    find_singleton_append_iff.2 hname
  have hslice : slice (functionStart ++ (name ++ ['>'] ++ (params ++ functionEnd ++ rest)))
      (0 + len functionStart) (0 + len functionStart + len name) = .ok name :=
    slice_eq functionStart name (['>'] ++ (params ++ functionEnd ++ rest)) (by simp)
      (Nat.zero_add _) (by rw [Nat.zero_add])
  have hfree : ¬functionEnd <:+: functionStart ++ (name ++ ['>'] ++ params) := by
    rw [IsTag.infix_past (by decide) (by decide) (by decide),
      IsTag.infix_append (by decide) hhead]
    exact not_or.2 ⟨htag, hparams⟩
  have hend : find functionEnd
      (functionStart ++ (name ++ ['>'] ++ (params ++ functionEnd ++ rest))) =
      some (len (functionStart ++ (name ++ ['>'] ++ params))) := by
    have h := (find_append_iff (p := functionEnd) (v := rest) rfl (by decide)).2 hfree
    simpa only [List.append_assoc] using h
  have hbody : slice (functionStart ++ (name ++ ['>'] ++ (params ++ functionEnd ++ rest)))
      (0 + len functionStart + len name + 1)
      (len (functionStart ++ (name ++ ['>'] ++ params))) = .ok params := by
    have hone : len ['>'] = 1 := rfl
    refine slice_eq (functionStart ++ name ++ ['>']) params (functionEnd ++ rest) (by simp) ?_ ?_
    · simp only [len_append, hone, Nat.zero_add]
    · simp only [len_append, Nat.add_assoc]
  rw [parseXmlCall, hstart]
  simp only [htail, hgt, hslice, hend, hbody, ok_bind]
  rfl

/-- The name of a call is what stands before the first `>`. -/
theorem parseXmlCall_name {E : Env} {tail : Str} {index : ℕ} {call : ToolCall Json}
    (h : parseXmlCall E (functionStart ++ tail) index = .ok call) :
    '>' ∉ call.function.name ∧ call.function.name ++ ['>'] <+: tail := by
  have hstart : find functionStart (functionStart ++ tail) = some 0 :=
    find_eq_some_iff.2 ⟨⟨[], tail, rfl, rfl⟩, fun j _ => Nat.zero_le j⟩
  have htail : sliceFrom (functionStart ++ tail) (0 + len functionStart) = .ok tail :=
    sliceFrom_eq functionStart tail rfl (Nat.zero_add _)
  rw [parseXmlCall, hstart] at h
  simp only [htail, ok_bind] at h
  cases hgt : find ['>'] tail with
  | none =>
    rw [hgt] at h
    cases h
  | some i =>
    obtain ⟨name, body, rfl, rfl, -⟩ := exists_cut hgt
    have hslice : slice (functionStart ++ (name ++ ['>'] ++ body)) (0 + len functionStart)
        (0 + len functionStart + len name) = .ok name :=
      slice_eq functionStart name (['>'] ++ body) (by simp) (Nat.zero_add _) (by rw [Nat.zero_add])
    rw [hgt] at h
    simp only [hslice, ok_bind] at h
    cases hend : find functionEnd (functionStart ++ (name ++ ['>'] ++ body)) with
    | none =>
      rw [hend] at h
      cases h
    | some functionEndAt =>
      rw [hend] at h
      dsimp only at h
      obtain ⟨params, -, h⟩ := bind_eq_ok.1 h
      obtain ⟨map, -, h⟩ := bind_eq_ok.1 h
      obtain rfl := pure_eq_ok.1 h
      exact ⟨find_singleton_append_iff.1 hgt, ⟨body, rfl⟩⟩

/-! ### A written call is decoded -/

section Written

variable {E : Env} {name : Str} {entries : List (Str × Str)}

theorem xmlCallText_eq (name : Str) (entries : List (Str × Str)) :
    xmlCallText name entries = toolCallStart ++ (functionStart ++ (name ++ ['>'] ++
      (entries.flatMap xmlParameter ++ (functionEnd ++ toolCallEnd)))) := by
  simp only [xmlCallText, xmlCallRest, List.append_assoc]

theorem plain_xmlCall : Plain (functionStart ++ xmlCallRest name entries) := by
  have houter : functionStart ++ xmlCallRest name entries =
      functionStart ++ (name ++ ['>'] ++ entries.flatMap xmlParameter) ++ functionEnd := by
    simp only [xmlCallRest, List.append_assoc]
  rw [houter]
  exact .of_outer (by decide) (by decide) _

/-- The body of a readable call is read as it was written. -/
theorem parseQwenCall_written (h : XmlEntries entries) (hread : ReadableCall name entries)
    (index : ℕ) : ∃ call, parseQwenCall E (functionStart ++ xmlCallRest name entries) index = .ok call ∧
      call.function = ⟨name, .object (xmlArguments entries)⟩ := by
  have hfree : ¬functionEnd <:+: entries.flatMap xmlParameter := by
    have hiff := IsTag.infix_parameters (p := functionEnd) (r := []) (by decide) (by decide)
      (by decide) nofun fun e he => (h.keys e he).1
    rw [List.append_nil] at hiff
    rw [hiff]
    rintro (⟨entry, hentry, hin⟩ | hin)
    · exact hread.values entry hentry hin
    · exact absurd (List.infix_nil.1 hin) (by decide)
  have hhead : ∀ a ∈ (entries.flatMap xmlParameter).head?, a = '<' := by
    have hhead := @head?_flatMap_append entries [] nofun
    rwa [List.append_nil] at hhead
  have hcall := parseXmlCall_closed E hread.closed (hread.tags _ (by decide)) hfree hhead [] index
  have hfuel : (entries.flatMap xmlParameter).length + 1 =
      (entries.flatMap xmlParameter).length - entries.length + 1 + entries.length := by
    have hle := length_le_flatMap entries
    omega
  have hloop := parseXmlParameters_entries entries []
    ((entries.flatMap xmlParameter).length - entries.length + 1) []
    fun e he => ⟨(h.keys e he).2, (h.values e he).1⟩
  have hnodup : (([] ++ xmlArguments entries).map Prod.fst).Nodup := by
    have hkeys : (xmlArguments entries).map Prod.fst = (entries.map (·.1)).map String.ofList := by
      simp only [xmlArguments, List.map_map]
      rfl
    rw [List.nil_append, hkeys]
    exact h.distinct.map fun _ _ heq => String.ofList_injective heq
  have hempty : parseXmlParameters ((entries.flatMap xmlParameter).length - entries.length + 1) []
      (xmlArguments entries) = .ok (xmlArguments entries) := by
    rw [parseXmlParameters_step]
    rfl
  rw [List.append_nil, foldl_insertKey hnodup, List.nil_append, ← hfuel, hempty] at hloop
  rw [hloop, List.append_nil] at hcall
  refine ⟨⟨E.generatedToolCallId index, .function, ⟨name, .object (xmlArguments entries)⟩⟩, ?_, rfl⟩
  have hxml : startsWith (functionStart ++ xmlCallRest name entries) functionStart = true :=
    startsWith_iff.2 ⟨_, rfl⟩
  rw [parseQwenCall, if_pos hxml]
  exact hcall

theorem decoded_of_readable (h : XmlEntries entries) (hread : ReadableCall name entries) :
    Decoded E name entries := by
  have hkeys : ∀ entry ∈ entries, '<' ∉ entry.1 := fun e he => (h.keys e he).1
  have hthink : ¬thinkStart <:+: xmlCallText name entries := by
    rw [xmlCallText_eq, IsTag.infix_past (by decide) (by decide) (by decide),
      IsTag.infix_past (by decide) (by decide) (by decide),
      IsTag.infix_xmlCallRest (by decide) (by decide) (by decide) (heads_of_all rfl) hkeys]
    rintro (hin | ⟨entry, hentry, hin⟩ | hin)
    · exact hread.tags _ (by decide) hin
    · exact (h.values entry hentry).2.2 hin
    · exact absurd hin (by decide)
  have hinner : ¬toolCallEnd <:+: functionStart ++ xmlCallRest name entries := by
    rw [xmlCallRest, IsTag.infix_past (by decide) (by decide) (by decide),
      IsTag.infix_xmlCallRest (by decide) (by decide) (by decide) (heads_of_all rfl) hkeys]
    rintro (hin | ⟨entry, hentry, hin⟩ | hin)
    · exact hread.tags _ (by decide) hin
    · exact (h.values entry hentry).2.1 hin
    · exact absurd hin (by decide)
  have hsplit := splitReasoning_eq (xmlCallText name entries)
  rw [splitBlock, cut_eq_none_of_free hthink] at hsplit
  have hcontains : contains (xmlCallText name entries) toolCallStart = true :=
    contains_iff.2 ⟨[], _, rfl⟩
  have htext : xmlCallText name entries = [] ++ [()].flatMap fun _ =>
      toolCallStart ++ (functionStart ++ xmlCallRest name entries) ++ toolCallEnd := by
    simp [xmlCallText]
  obtain ⟨calls, hparse, hmap⟩ : ∃ calls, parseBlocks toolCallStart toolCallEnd
      "unterminated qwen tool_call tag" (parseQwenCall E) ((xmlCallText name entries).length + 1)
      (xmlCallText name entries) [] [] = .ok ([], calls) ∧ calls.map (·.function) =
        [()].map fun _ => ⟨name, .object (xmlArguments entries)⟩ :=
    parseBlocks_printed (by decide) (by decide) (by decide) (fun _ _ => hinner)
      (fun _ _ index => by
        rw [plain_xmlCall.trim]
        exact parseQwenCall_written h hread index) htext
  refine ⟨⟨none, [], calls⟩, ?_, hmap⟩
  rw [QwenParser.parseComplete, hsplit, ok_bind]
  dsimp only
  rw [if_pos hcontains, parseToolCalls, hparse]
  rfl

end Written

/-! ### What a decoded call says of its text -/

theorem trim_functionStart (u : Str) : trim (functionStart ++ u) = functionStart ++ trimEnd u := by
  have hstart : trimStart (functionStart ++ u) = functionStart ++ u := rfl
  rw [trim, hstart, List.reverse_append, List.dropWhile_append, trimEnd]
  by_cases hempty : (u.reverse.dropWhile isWhitespace).isEmpty = true
  · rw [if_pos hempty, List.isEmpty_iff.1 hempty]
    rfl
  · rw [if_neg hempty, List.reverse_append, List.reverse_reverse]

theorem trimEnd_prefix (u : Str) : trimEnd u <+: u := by
  have h := List.reverse_prefix.2 (List.dropWhile_suffix (l := u.reverse) isWhitespace)
  rwa [List.reverse_reverse] at h

theorem splitBlock_past {start stop q : Str} (hstart : IsTag start) (hq : IsTag q)
    (hd : Distinct start q) (r : Str) :
    (splitBlock start stop (q ++ r)).2 = q ++ (splitBlock start stop r).2 := by
  unfold splitBlock
  rw [hstart.cut_past hq hd]
  cases cut start r with
  | none => rfl
  | some x =>
    obtain ⟨before, body⟩ := x
    simp only [Option.map_some]
    cases cut stop body with
    | none => rfl
    | some y =>
      obtain ⟨inner, after⟩ := y
      simp only [List.append_assoc]

/-- What is in front of a part of a name with its `>` has no `>`. -/
theorem not_mem_of_append_eq {c : Char} {name u v : Str} (hname : c ∉ name) (hv : v ≠ [])
    (h : name ++ [c] = u ++ v) : c ∉ u := by
  rcases List.eq_nil_or_concat v with rfl | ⟨v', d, rfl⟩
  · exact absurd rfl hv
  · rw [List.concat_eq_append, ← List.append_assoc] at h
    obtain ⟨rfl, -⟩ := List.append_inj' h rfl
    exact fun hmem => hname (List.mem_append_left _ hmem)

/-- A tag in a name with its `>` is at its end. -/
theorem tag_ends_name {name tag : Str} (htag : IsTag tag) (hgt : '>' ∈ tag) (hname : '>' ∉ name)
    (hin : tag <:+: name ++ ['>']) :
    ∃ u, name ++ ['>'] = u ++ tag ∧ '>' ∉ u ∧ ¬tag <:+: u := by
  cases hcut : cut tag (name ++ ['>']) with
  | none => exact absurd hin (cut_eq_none_iff_free.1 hcut)
  | some x =>
    obtain ⟨u, w⟩ := x
    have hfree := htag.infix_cut hcut
    obtain ⟨heq, -⟩ := cut_eq_some_iff.1 hcut
    have hw : w = [] := by
      by_contra hw
      exact not_mem_of_append_eq hname hw heq (List.mem_append_right _ hgt)
    rw [hw, List.append_nil] at heq
    exact ⟨u, heq, not_mem_of_append_eq hname htag.ne_nil heq, hfree⟩

/-- The first call of a text that starts with one in the XML form. -/
theorem first_call_of_ok {E : Env} {text tail : Str} {parsed : ParsedAssistant Json}
    (h : QwenParser.parseComplete E text = .ok parsed)
    (hrest : (splitBlock thinkStart thinkEnd text).2 = toolCallStart ++ (functionStart ++ tail)) :
    ∃ u v call, cut toolCallEnd tail = some (u, v) ∧
      parseXmlCall E (functionStart ++ trimEnd u) 0 = .ok call ∧
      parsed.toolCalls.head? = some call := by
  have hcontains : contains (splitBlock thinkStart thinkEnd text).2 toolCallStart = true :=
    contains_iff.2 ⟨[], _, by rw [hrest, List.nil_append]⟩
  rw [QwenParser.parseComplete, splitReasoning_eq, ok_bind] at h
  dsimp only at h
  rw [if_pos hcontains, parseToolCalls, parseBlocks_eq (by decide) (by decide) (Nat.lt_succ_self _),
    hrest] at h
  have hopen : cut toolCallStart (toolCallStart ++ (functionStart ++ tail)) =
      some ([], functionStart ++ tail) :=
    IsTag.cut_append (u := []) (by decide) (by decide) (functionStart ++ tail)
  rw [blocksOf_eq (by decide) (by decide), hopen] at h
  dsimp only at h
  rw [IsTag.cut_past (by decide) (by decide) (by decide)] at h
  cases hcut : cut toolCallEnd tail with
  | none =>
    rw [hcut] at h
    obtain ⟨_, hblocks, -⟩ := bind_eq_ok.1 h
    obtain ⟨_, -, hfail⟩ := bind_eq_ok.1 hblocks
    cases hfail
  | some x =>
    obtain ⟨u, v⟩ := x
    rw [hcut] at h
    simp only [Option.map_some] at h
    obtain ⟨⟨content, calls⟩, hblocks, hparsed⟩ := bind_eq_ok.1 h
    obtain rfl := pure_eq_ok.1 hparsed
    obtain ⟨found, hfound, hblocks⟩ := bind_eq_ok.1 hblocks
    rw [parseEach, List.length_nil] at hfound
    obtain ⟨call, hcall, hfound⟩ := bind_eq_ok.1 hfound
    obtain ⟨more, -, hfound⟩ := bind_eq_ok.1 hfound
    obtain rfl := pure_eq_ok.1 hfound
    refine ⟨u, v, call, rfl, ?_, ?_⟩
    · rw [trim_functionStart] at hcall
      have hxml : startsWith (functionStart ++ trimEnd u) functionStart = true :=
        startsWith_iff.2 ⟨_, rfl⟩
      rwa [parseQwenCall, if_pos hxml] at hcall
    · cases htail : (blocksOf toolCallStart toolCallEnd v).tail with
      | none =>
        rw [htail] at hblocks
        cases hblocks
      | some tail =>
        rw [htail] at hblocks
        obtain ⟨-, rfl⟩ := Prod.mk.inj (Except.ok.inj hblocks)
        rfl

section Decoded

variable {E : Env} {name : Str} {entries : List (Str × Str)}

/-- The name of a decoded call has no `>`, and no tag at which the text or the call ends. -/
theorem name_of_decoded (h : XmlEntries entries) (hdecoded : Decoded E name entries) :
    '>' ∉ name ∧ ¬thinkStart <:+: name ++ ['>'] ∧ ¬toolCallEnd <:+: name ++ ['>'] ∧
      ∃ call, parseXmlCall E (functionStart ++ xmlCallRest name entries) 0 = .ok call := by
  have hkeys : ∀ entry ∈ entries, '<' ∉ entry.1 := fun e he => (h.keys e he).1
  obtain ⟨parsed, hparsed, hmap⟩ := hdecoded
  set rest := entries.flatMap xmlParameter ++ (functionEnd ++ toolCallEnd) with hrest
  have hsplit : (splitBlock thinkStart thinkEnd (xmlCallText name entries)).2 = toolCallStart ++
      (functionStart ++ (splitBlock thinkStart thinkEnd (name ++ ['>'] ++ rest)).2) := by
    rw [xmlCallText_eq, splitBlock_past (by decide) (by decide) (by decide),
      splitBlock_past (by decide) (by decide) (by decide)]
  obtain ⟨u, v, call, hcut, hcall, hhead⟩ := first_call_of_ok hparsed hsplit
  have hfunction : call.function = ⟨name, .object (xmlArguments entries)⟩ := by
    obtain ⟨more, hmore⟩ := List.head?_eq_some_iff.1 hhead
    rw [hmore, List.map_cons] at hmap
    exact (List.cons.inj hmap).1
  obtain ⟨hname, hname_prefix⟩ := parseXmlCall_name hcall
  rw [hfunction] at hname hname_prefix
  have hlead : name ++ ['>'] <+: u := hname_prefix.trans ( trimEnd_prefix u)
  have hthink : ¬thinkStart <:+: name ++ ['>'] := by
    intro hin
    obtain ⟨w, hw, -, hfree⟩ := tag_ends_name (by decide) (by decide) hname hin
    -- the text goes on behind the reasoning, which starts in the name
    have hopen : cut thinkStart (name ++ ['>'] ++ rest) = some (w, rest) := by
      rw [hw]
      exact IsTag.cut_append (by decide) hfree rest
    obtain ⟨hu, -⟩ := cut_eq_some_iff.1 hcut
    have hlong : name ++ ['>'] <+: (splitBlock thinkStart thinkEnd (name ++ ['>'] ++ rest)).2 := by
      rw [hu, List.append_assoc]
      exact hlead.trans (List.prefix_append _ _)
    rw [splitBlock, hopen] at hlong
    dsimp only at hlong
    cases hclose : cut thinkEnd rest with
    | none =>
      rw [hclose, hw] at hlong
      have hlen : (w ++ thinkStart).length ≤ w.length := hlong.length_le
      have hpos : 0 < thinkStart.length := by decide
      rw [List.length_append] at hlen
      omega
    | some y =>
      obtain ⟨inner, after⟩ := y
      rw [hclose, hw] at hlong
      have hafter : thinkStart <:+: rest := by
        obtain ⟨heq, -⟩ := cut_eq_some_iff.1 hclose
        rw [heq]
        exact ((List.prefix_append_right_inj w).1 hlong).isInfix.trans
          (List.suffix_append _ _).isInfix
      rw [hrest, IsTag.infix_parameters (by decide) (by decide) (by decide) (heads_of_all rfl) hkeys]
        at hafter
      rcases hafter with ⟨entry, hentry, hin⟩ | hin
      · exact (h.values entry hentry).2.2 hin
      · exact absurd hin (by decide)
  have hsame : (splitBlock thinkStart thinkEnd (name ++ ['>'] ++ rest)).2 = name ++ ['>'] ++ rest := by
    have hfree : ¬thinkStart <:+: name ++ ['>'] ++ rest := by
      rw [hrest, IsTag.infix_xmlCallRest (by decide) (by decide) (by decide) (heads_of_all rfl) hkeys]
      rintro (hin | ⟨entry, hentry, hin⟩ | hin)
      · exact hthink hin
      · exact (h.values entry hentry).2.2 hin
      · exact absurd hin (by decide)
    rw [splitBlock, cut_eq_none_of_free hfree]
  rw [hsame] at hcut
  have hclose : ¬toolCallEnd <:+: name ++ ['>'] := by
    intro hin
    obtain ⟨w, hw, -, hfree⟩ := tag_ends_name (by decide) (by decide) hname hin
    rw [hw, IsTag.cut_append (by decide) hfree rest] at hcut
    obtain ⟨rfl, -⟩ := Prod.mk.inj (Option.some.inj hcut)
    have hlen := hlead.length_le
    have hpos : 0 < toolCallEnd.length := by decide
    rw [hw, List.length_append] at hlen
    omega
  refine ⟨hname, hthink, hclose, call, ?_⟩
  have hbody : ¬toolCallEnd <:+: xmlCallRest name entries := by
    rw [xmlCallRest, IsTag.infix_xmlCallRest (by decide) (by decide) (by decide) (heads_of_all rfl) hkeys]
    rintro (hin | ⟨entry, hentry, hin⟩ | hin)
    · exact hclose hin
    · exact (h.values entry hentry).2.1 hin
    · exact absurd hin (by decide)
  have hend : cut toolCallEnd (name ++ ['>'] ++ rest) = some (xmlCallRest name entries, []) := by
    have hcut := IsTag.cut_append (p := toolCallEnd) (by decide) hbody []
    rwa [List.append_nil, show xmlCallRest name entries ++ toolCallEnd = name ++ ['>'] ++ rest from by
      simp only [xmlCallRest, hrest, List.append_assoc]] at hcut
  rw [hend] at hcut
  obtain ⟨rfl, -⟩ := Prod.mk.inj (Option.some.inj hcut)
  have htrim := (@plain_xmlCall name entries).trim
  rw [trim_functionStart] at htrim
  rwa [htrim] at hcall

/-- A close tag of the function in a value ends the parameters in the middle of it. -/
theorem values_of_ok {index : ℕ} {call : ToolCall Json} (h : XmlEntries entries) (hname : '>' ∉ name)
    (htag : ¬functionEnd <:+: name ++ ['>'])
    (hcall : parseXmlCall E (functionStart ++ xmlCallRest name entries) index = .ok call) :
    ∀ entry ∈ entries, ¬functionEnd <:+: entry.2 := by
  intro entry hentry hin
  cases hfirst : entries.find? fun entry => contains entry.2 functionEnd with
  | none => exact absurd (contains_iff.2 hin) (List.find?_eq_none.1 hfirst entry hentry)
  | some found =>
    obtain ⟨key, value⟩ := found
    obtain ⟨hvalue, before, after, rfl, hbefore⟩ := List.find?_eq_some_iff_append.1 hfirst
    have hkeys := h.keys (key, value) (by simp)
    have hfree := (h.values (key, value) (by simp)).1
    cases hcut : cut functionEnd value with
    | none => exact absurd (contains_iff.1 hvalue) (cut_eq_none_iff_free.1 hcut)
    | some x =>
      obtain ⟨u, w⟩ := x
      have hu := IsTag.infix_cut (by decide) hcut
      obtain ⟨rfl, -⟩ := cut_eq_some_iff.1 hcut
      set params := before.flatMap xmlParameter ++ (parameterStart ++ (key ++ ['>'] ++ u)) with hparams
      have hrest : xmlCallRest name (before ++ (key, u ++ functionEnd ++ w) :: after) =
          name ++ ['>'] ++ (params ++ functionEnd ++
            (w ++ parameterEnd ++ (after.flatMap xmlParameter ++ functionEnd))) := by
        simp only [xmlCallRest, xmlParameter, hparams, List.flatMap_append, List.flatMap_cons,
          List.append_assoc]
      have hpast : ¬functionEnd <:+: params := by
        rw [hparams, IsTag.infix_parameters (by decide) (by decide) (by decide)
          (by
            intro a ha
            exact (Option.some.inj (show some '<' = some a from ha)).symm)
          fun e he => (h.keys e (by simp [he])).1]
        rintro (⟨e, he, hin⟩ | hin)
        · have hcontains := hbefore e he
          rw [contains_iff.2 hin] at hcontains
          cases hcontains
        · rw [IsTag.infix_past (by decide) (by decide) (by decide),
            IsTag.infix_skip (by decide) (by simpa using hkeys.1)] at hin
          exact hu hin
      have hhead : ∀ a ∈ params.head?, a = '<' := head?_flatMap_append (by
        intro a ha
        exact (Option.some.inj (show some '<' = some a from ha)).symm)
      have hfuel : params.length + 1 = params.length - before.length + 1 + before.length := by
        have hle := length_le_flatMap before
        have hpast : (before.flatMap xmlParameter).length ≤ params.length :=
          (List.prefix_append _ _).length_le
        omega
      have hloop := parseXmlParameters_entries before []
        (params.length - before.length + 1) (parameterStart ++ (key ++ ['>'] ++ u))
        fun e he => ⟨(h.keys e (by simp [he])).2, (h.values e (by simp [he])).1⟩
      rw [← hfuel, ← hparams, parseXmlParameters_open hkeys.2 fun hin =>
        hfree (hin.trans ⟨[], functionEnd ++ w, by simp⟩)] at hloop
      rw [hrest, parseXmlCall_closed E hname htag hpast hhead, hloop] at hcall
      cases hcall

theorem readable_of_decoded (h : XmlEntries entries) (hdecoded : Decoded E name entries) :
    ReadableCall name entries := by
  obtain ⟨hname, hthink, hclose, call, hcall⟩ := name_of_decoded h hdecoded
  have htag : ¬functionEnd <:+: name ++ ['>'] := by
    intro hin
    obtain ⟨w, hw, hgt, -⟩ := tag_ends_name (by decide) (by decide) hname hin
    have hunclosed : Unclosed (functionStart ++ xmlCallRest name entries) :=
      ⟨w, entries.flatMap xmlParameter ++ functionEnd, by rw [xmlCallRest, hw], hgt⟩
    have hreturns := (returns_parseXmlCall_iff E (startsWith_iff.2 ⟨_, rfl⟩) 0).1
      (hcall ▸ returns_ok call)
    exact hreturns hunclosed
  refine ⟨hname, fun tag hmem => ?_, values_of_ok h hname htag hcall⟩
  obtain rfl | rfl | rfl : tag = thinkStart ∨ tag = toolCallEnd ∨ tag = functionEnd := by
    simpa using hmem
  · exact hthink
  · exact hclose
  · exact htag

/-- **Calls in the XML form.** A written call is found with its name and its arguments just if
no value contains the close tag of the function and the name none of the tags and no `>`. -/
theorem xml_call_decoded_iff (h : XmlEntries entries) :
    Decoded E name entries ↔ ReadableCall name entries :=
  ⟨readable_of_decoded h, decoded_of_readable h⟩

end Decoded

/-- A command with markup in it. -/
def markupEntries : List (Str × Str) :=
  [("cmd".toList, "if a < b \x7b c() \x7d <parameter=x> <tool_call>".toList), ("cwd".toList, "\n".toList)]

theorem markup_call_decoded : Decoded compactEnv "bash".toList markupEntries :=
  (xml_call_decoded_iff ⟨by decide +kernel, by decide +kernel, by decide +kernel⟩).2
    ⟨by decide +kernel, by decide +kernel, by decide +kernel⟩

/-- A value with the close tag of a function. -/
def closingEntries : List (Str × Str) := [("cmd".toList, "a</function>b".toList)]

theorem closing_value_refused :
    XmlEntries closingEntries ∧ ¬Decoded compactEnv "bash".toList closingEntries := by
  refine ⟨⟨by decide +kernel, by decide +kernel, by decide +kernel⟩, ?_⟩
  rintro ⟨parsed, hparsed, -⟩
  have h : (QwenParser.parseComplete compactEnv (xmlCallText "bash".toList closingEntries)).isOk =
      false := by decide +kernel
  rw [hparsed] at h
  cases h

end KirAi.ToolParser
