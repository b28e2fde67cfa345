import AdacHybridMsp430.AssemblyText
import Mathlib.Data.List.Nodup

/-!
# Registering the elaboration procedures

A library unit may have an elaboration procedure for its specification and one
for its body.  The driver looks for the labels of the latter only, so a text is
registered completely exactly when it defines none of the former and each of
the latter once.
-/

namespace AdacHybridMsp430

namespace Assembly

open ListReplacement

def specSuffix : Text := "___elabs".toList
def bodySuffix : Text := "___elabb".toList

def isBodyLabel (label : Text) : Bool :=
  bodySuffix <:+ label

/-- The assembly text of a unit.  The rest of the line that defines a spec
elaboration procedure does not look like the definition of a body elaboration
procedure. -/
structure UnitAssembly extends AssemblyText where
  specLines : ∀ line ∈ lines, ∀ label, labelOf line = some label →
    specSuffix <:+ label → ¬ elaborationMark <:+: line

/-- Every elaboration procedure that the text defines is registered once, and
the spec of a unit before its body. -/
structure ElaborationRegistered (keepAdaMain : Bool) (source : AssemblyText) :
    Prop where
  once : ∀ label ∈ (source.renamed keepAdaMain).labels,
    specSuffix <:+ label ∨ bodySuffix <:+ label →
      (source.appendedEntries keepAdaMain).count label = 1
  ordered : ∀ unit : Text,
    unit ++ specSuffix ∈ (source.renamed keepAdaMain).labels →
      unit ++ bodySuffix ∈ (source.renamed keepAdaMain).labels →
        [unit ++ specSuffix, unit ++ bodySuffix].Sublist
          (source.appendedEntries keepAdaMain)

/-- The text defines no spec elaboration procedure and no body elaboration
procedure twice. -/
structure OnlyBodies (keepAdaMain : Bool) (source : AssemblyText) : Prop where
  noSpec : ∀ label ∈ source.labels, ¬ specSuffix <:+ label
  distinct : ((source.renamed keepAdaMain).labels.filter isBodyLabel).Nodup

section Entries

/-- The entries that are a given symbol come from the marked lines that it
labels. -/
theorem count_addedEntries (source : AssemblyText) {label : Text}
    (nonempty : label ≠ [])
    (symbols : ∀ character ∈ label, isSymbolCharacter character = true) :
    source.addedEntries.count label =
      source.lines.countP fun line =>
        labelOf line = some label ∧ elaborationMark <:+: line := by
  rw [addedEntries_eq, List.count, List.countP_map, List.countP_filter]
  apply List.countP_congr
  intro line _
  simp only [Function.comp_apply, Bool.and_eq_true, beq_iff_eq,
    decide_eq_true_eq]
  constructor
  · rintro ⟨entry, marked⟩
    exact ⟨(entryOf_eq_iff_labelOf_eq (colon_mem_of_elaborationMark marked)
      nonempty symbols).mp entry, marked⟩
  · rintro ⟨label, marked⟩
    exact ⟨(entryOf_eq_iff_labelOf_eq (colon_mem_of_elaborationMark marked)
      nonempty symbols).mpr label, marked⟩

/-- The definition of a body elaboration procedure is marked. -/
theorem marked_of_labelOf {line label : Text} (defined : labelOf line = some label)
    (body : bodySuffix <:+ label) : elaborationMark <:+: line := by
  obtain ⟨-, -, margin, rest, -, rfl⟩ := labelOf_eq_some_iff.mp defined
  obtain ⟨unit, rfl⟩ := body
  have mark : elaborationMark = bodySuffix ++ [':'] := by decide
  refine ⟨margin ++ unit, rest, ?_⟩
  simp [mark]

end Entries

section Suffixes

/-- With a final mark that occurs nowhere else, suffixes become infixes. -/
theorem suffix_iff_infix_concat {query text : Text} {mark : Char}
    (absent : mark ∉ text) :
    query <:+ text ↔ query ++ [mark] <:+: text ++ [mark] := by
  constructor
  · rintro ⟨start, rfl⟩
    exact ⟨start, [], by simp⟩
  · intro occurs
    rcases List.infix_concat_iff.mp occurs with atEnd | inside
    · rcases List.suffix_concat_iff.mp atEnd with empty | ⟨start, same, isSuffix⟩
      · simp at empty
      · rwa [List.append_cancel_right same]
    · exact absurd (inside.subset (by simp)) absent

/-- Renaming does not change which labels are those of spec elaboration
procedures. -/
theorem specSuffix_renamedText_iff (keepAdaMain : Bool) {label : Text}
    (colonFree : ':' ∉ label) :
    specSuffix <:+ renamedText keepAdaMain label ↔ specSuffix <:+ label := by
  cases keepAdaMain with
  | true => rfl
  | false =>
      have unaffected : Unaffected adaMainSymbol mainSymbol (specSuffix ++ [':']) :=
        ⟨by decide +kernel, by decide +kernel, by decide +kernel,
          by decide +kernel⟩
      have kept : renameAdaMain (label ++ [':']) = renameAdaMain label ++ [':'] :=
        replaceAll_append_cons adaMainSymbol_ne_nil (by decide) label []
      have renamedFree : ':' ∉ renameAdaMain label :=
        not_mem_renamedText (by decide) false colonFree
      rw [renamedText_false, suffix_iff_infix_concat renamedFree, ← kept,
        suffix_iff_infix_concat colonFree]
      exact infix_replaceAll_iff adaMainSymbol_ne_nil unaffected _

end Suffixes

section Registration

variable (keepAdaMain : Bool) (source : UnitAssembly)

/-- A body elaboration procedure is registered as often as it is defined. -/
theorem count_appendedEntries_of_body {label : Text}
    (member : label ∈ (source.renamed keepAdaMain).labels)
    (body : bodySuffix <:+ label) :
    (source.appendedEntries keepAdaMain).count label =
      (source.renamed keepAdaMain).labels.count label := by
  obtain ⟨nonempty, symbols⟩ := label_symbols member
  rw [appendedEntries_eq, count_addedEntries _ nonempty symbols,
    AssemblyText.labels, List.count_filterMap]
  apply List.countP_congr
  intro line _
  simp only [decide_eq_true_eq, beq_iff_eq]
  exact and_iff_left_of_imp fun defined => marked_of_labelOf defined body

/-- A spec elaboration procedure is not registered. -/
theorem count_appendedEntries_of_spec {label : Text}
    (member : label ∈ (source.renamed keepAdaMain).labels)
    (spec : specSuffix <:+ label) :
    (source.appendedEntries keepAdaMain).count label = 0 := by
  obtain ⟨nonempty, symbols⟩ := label_symbols member
  rw [appendedEntries_eq, count_addedEntries _ nonempty symbols,
    List.countP_eq_zero]
  intro line lineMem
  obtain ⟨original, originalMem, rfl⟩ := List.mem_map.mp lineMem
  rw [decide_eq_true_eq, labelOf_renamedText, Option.map_eq_some_iff,
    elaborationMark_infix_renamedText_iff]
  rintro ⟨⟨originalLabel, defined, rfl⟩, marked⟩
  have isLabel := labelOf_eq_some_iff.mp defined
  rw [specSuffix_renamedText_iff keepAdaMain
    (colon_not_mem_of_symbols isLabel.2.1)] at spec
  exact source.specLines original originalMem originalLabel defined spec marked

/-- Renaming keeps the labels of spec elaboration procedures. -/
theorem noSpec_renamed_iff (source : AssemblyText) :
    (∀ label ∈ (source.renamed keepAdaMain).labels, ¬ specSuffix <:+ label) ↔
      ∀ label ∈ source.labels, ¬ specSuffix <:+ label := by
  rw [labels_renamed, List.forall_mem_map]
  apply forall₂_congr
  intro label member
  apply not_congr
  exact specSuffix_renamedText_iff keepAdaMain
    (colon_not_mem_of_symbols (label_symbols member).2)

/-- A text is registered completely exactly when it defines no spec elaboration
procedure and no body elaboration procedure twice. -/
theorem elaborationRegistered_iff :
    ElaborationRegistered keepAdaMain source.toAssemblyText ↔
      OnlyBodies keepAdaMain source.toAssemblyText := by
  constructor
  · intro registered
    refine ⟨(noSpec_renamed_iff keepAdaMain _).mp ?_, ?_⟩
    · intro label member spec
      have once := registered.once label member (Or.inl spec)
      rw [count_appendedEntries_of_spec keepAdaMain source member spec] at once
      cases once
    · rw [List.nodup_iff_count_eq_one]
      intro label member
      obtain ⟨isLabel, body⟩ := List.mem_filter.mp member
      have once := registered.once label isLabel (Or.inr (of_decide_eq_true body))
      rw [List.count_filter body, ← once]
      exact (count_appendedEntries_of_body keepAdaMain source isLabel
        (of_decide_eq_true body)).symm
  · intro onlyBodies
    have noSpec := (noSpec_renamed_iff keepAdaMain _).mpr onlyBodies.noSpec
    refine ⟨?_, ?_⟩
    · intro label member elaboration
      have body := elaboration.resolve_left (noSpec label member)
      have isBody : isBodyLabel label = true := decide_eq_true body
      have single := List.nodup_iff_count_eq_one.mp onlyBodies.distinct label
        (List.mem_filter.mpr ⟨member, isBody⟩)
      rw [List.count_filter isBody] at single
      rw [count_appendedEntries_of_body keepAdaMain source member body, single]
    · intro unit specMem
      exact absurd (List.suffix_append _ _) (noSpec _ specMem)

end Registration

/-- The text of a unit whose spec and body both need elaboration. -/
def twoProcedures : UnitAssembly where
  lines := ["p___elabs:".toList, "\tret".toList, "p___elabb:".toList]
  lineEnds := by decide
  specLines := by
    intro line member label defined spec
    have plain : ∀ line ∈ ["p___elabs:".toList, "\tret".toList,
        "p___elabb:".toList], elaborationMark <:+: line →
          ¬ ∃ label ∈ labelOf line, specSuffix <:+ label := by
      decide +kernel
    exact fun marked => plain line member marked ⟨label, defined, spec⟩

/-- The elaboration of a spec is never run. -/
theorem not_elaborationRegistered_spec :
    ¬ ElaborationRegistered true twoProcedures.toAssemblyText := by
  intro registered
  have once := registered.once "p___elabs".toList (by decide +kernel)
    (Or.inl (by decide))
  revert once
  decide +kernel

end Assembly

end AdacHybridMsp430
