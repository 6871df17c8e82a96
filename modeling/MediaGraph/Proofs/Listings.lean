import MediaGraph.Catalog.Listing
import MediaGraph.Proofs.Lines
import Mathlib.Data.List.Forall2

/-! Tables of filters as they are read.
The columns of a row are cut apart in one way only, and a table is read exactly if its rows follow
each other with nothing but blank lines between them. -/
namespace MediaGraph.Catalog.Listing
open Text

/-- The columns of a row and what stands between them. What follows the pads is no pad mark. -/
structure Columns where
  lead : List Char
  flags : FilterFlags
  first : List Char
  name : List Char
  second : List Char
  inputs : List Char
  outputs : List Char
  before : List Char
  description : List Char
  after : List Char
  blanks : Blank lead ∧ Blank first ∧ Blank second ∧ Blank before ∧ Blank after
  gaps : first ≠ [] ∧ second ≠ []
  named : name ≠ []
  solid : ∀ c ∈ name, isBlank c = false
  marks : ∀ c ∈ inputs ++ outputs, c ∈ ['A','V','N','|']
  padded : inputs ≠ [] ∧ outputs ≠ []
  ends : Stops isPadMark (before ++ description ++ after)
  trimmed : Trimmed description

def column (letter : Char) (set : Bool) : Char := if set then letter else '.'

namespace Columns

def text (columns : Columns) : List Char :=
  columns.lead ++
    [column 'T' columns.flags.timeline,column 'S' columns.flags.sliceThreads,
      column 'C' columns.flags.command] ++
    columns.first ++ columns.name ++ columns.second ++ columns.inputs ++ ['-','>'] ++
    columns.outputs ++ columns.before ++ columns.description ++ columns.after

def row (columns : Columns) : Row :=
  ⟨columns.name,columns.flags,columns.inputs,columns.outputs,columns.description⟩

end Columns

/-- The line is a row with these contents. -/
def Written (line : List Char) (row : Row) : Prop :=
  ∃ columns : Columns, columns.text = line ∧ columns.row = row

inductive Letter : Char → Media → Prop
  | video : Letter 'V' .video
  | audio : Letter 'A' .audio

inductive Stands : List Char → Pads → Prop
  | none : Stands ['|'] .none
  | dynamic : Stands ['N'] .dynamic
  | fixed {marks : List Char} {kinds : List Media} :
    List.Forall₂ Letter marks kinds → Stands marks (.fixed kinds)

def Legible (marks : List Char) : Prop :=
  marks = ['|'] ∨ marks = ['N'] ∨ ∀ c ∈ marks, c = 'V' ∨ c = 'A'

structure Row.Means (row : Row) (spec : FilterSpec) : Prop where
  name : spec.name = String.ofList row.name
  flags : spec.flags = row.flags
  inputs : Stands row.inputs spec.inputs
  outputs : Stands row.outputs spec.outputs
  description : spec.description = String.ofList row.description

inductive Lists : List (List Char) → List FilterSpec → Prop
  | nil : Lists [] []
  | row {line : List Char} {row : Row} {spec : FilterSpec} {more : List (List Char)}
      {specs : List FilterSpec} :
    Written line row → row.Means spec → Lists more specs → Lists (line :: more) (spec :: specs)
  | other {line : List Char} {more : List (List Char)} {specs : List FilterSpec} :
    (∀ row, ¬ Written line row) → Lists more specs → Lists (line :: more) specs

def Filled (lines : List (List Char)) : Prop :=
  ∀ line ∈ lines, Blank line ∨ ∃ row, Written line row

/-- After a row every line has to be blank or a row. -/
def Closed (lines : List (List Char)) : Prop :=
  ∀ before first after, lines = before ++ first :: after → (∃ row, Written first row) → Filled after

structure Tabular (lines : List (List Char)) : Prop where
  present : ∃ line ∈ lines, ∃ row, Written line row
  closed : Closed lines
  legible : ∀ line ∈ lines, ∀ row, Written line row → Legible row.inputs ∧ Legible row.outputs

section Rows
variable {line s rest marks : List Char} {row : Row}

theorem flag?_some {letter c : Char} (sign : letter ≠ '.') (set : Bool) :
    flag? letter c = some set ↔ c = column letter set := by
  cases set <;> simp only [flag?,column] <;> split <;> simp_all

theorem flags?_some {flags : FilterFlags} : flags? s = some (flags,rest) ↔
    s = [column 'T' flags.timeline,column 'S' flags.sliceThreads,column 'C' flags.command] ++ rest := by
  obtain ⟨timeline,slices,command⟩ := flags
  constructor
  · intro found
    match s with
    | [] | [_] | [_,_] => cases found
    | t :: u :: c :: more =>
      simp only [flags?,Option.bind_eq_bind,Option.bind_eq_some_iff,
        flag?_some (show 'T' ≠ '.' by decide),flag?_some (show 'S' ≠ '.' by decide),
        flag?_some (show 'C' ≠ '.' by decide),Option.pure_def,Option.some.injEq,Prod.mk.injEq,
        FilterFlags.mk.injEq] at found
      obtain ⟨_,rfl,_,rfl,_,rfl,⟨rfl,rfl,rfl⟩,rfl⟩ := found
      rfl
  · rintro rfl
    simp [flags?,(flag?_some (show 'T' ≠ '.' by decide) timeline).mpr rfl,
      (flag?_some (show 'S' ≠ '.' by decide) slices).mpr rfl,
      (flag?_some (show 'C' ≠ '.' by decide) command).mpr rfl]

theorem skipBlanks?_some : skipBlanks? s = some rest ↔
    ∃ gap, s = gap ++ rest ∧ gap ≠ [] ∧ Blank gap ∧ Stops isBlank rest := by
  constructor
  · intro found
    cases s with
    | nil => cases found
    | cons c more =>
      simp only [skipBlanks?,Option.ite_none_right_eq_some,Option.some.injEq] at found
      obtain ⟨blank,left⟩ := found
      obtain ⟨gap,rfl,all,stops⟩ := dropWhile_eq_iff.mp left
      exact ⟨c :: gap,rfl,by simp,by simpa [Blank,blank] using all,stops⟩
  · rintro ⟨gap,rfl,some,all,stops⟩
    cases gap with
    | nil => exact absurd rfl some
    | cons c more =>
      simp only [Blank,List.mem_cons,forall_eq_or_imp] at all
      simp only [List.cons_append,skipBlanks?,all.1,if_true,Option.some.injEq]
      exact dropWhile_eq_iff.mpr ⟨more,rfl,all.2,stops⟩

theorem padMarks?_some : padMarks? s = some (marks,rest) ↔
    s = marks ++ rest ∧ marks ≠ [] ∧ (∀ c ∈ marks, isPadMark c = true) ∧ Stops isPadMark rest := by
  have found : padMarks? s = some (marks,rest) ↔ s.span isPadMark = (marks,rest) ∧ marks ≠ [] := by
    rw [padMarks?]
    generalize s.span isPadMark = cutting
    obtain ⟨front,left⟩ := cutting
    cases front <;> simp +contextual [eq_comm]
  rw [found,span_eq_iff]
  tauto

theorem arrow?_some : arrow? s = some rest ↔ s = '-' :: '>' :: rest := by
  constructor
  · intro found
    unfold arrow? at found
    split at found
    · rw [Option.some.inj found]
    · cases found
  · rintro rfl
    rfl

theorem isPadMark_iff {c : Char} : isPadMark c = true ↔ c ∈ ['A','V','N','|'] := by
  simp [isPadMark,or_assoc]

theorem isBlank_of_mark {c : Char} (mark : isPadMark c = true) : isBlank c = false := by
  simp only [isPadMark_iff,List.mem_cons,List.not_mem_nil,or_false] at mark
  rcases mark with rfl | rfl | rfl | rfl <;> rfl

theorem column_solid (letter : Char) (set : Bool) (solid : isBlank letter = false) :
    isBlank (column letter set) = false := by
  cases set
  · exact rfl
  · exact solid

theorem row?_passes : row? line = some row ↔
    ∃ flagged spaced named gapped padded crossed tail,
      flags? (line.dropWhile isBlank) = some (row.flags,flagged) ∧
      skipBlanks? flagged = some spaced ∧
      spaced.span (fun c => !isBlank c) = (row.name,named) ∧
      skipBlanks? named = some gapped ∧
      padMarks? gapped = some (row.inputs,padded) ∧
      arrow? padded = some crossed ∧
      padMarks? crossed = some (row.outputs,tail) ∧
      trim tail = row.description := by
  obtain ⟨name,flags,inputs,outputs,description⟩ := row
  simp only [row?,Option.bind_eq_bind,Option.bind_eq_some_iff,Option.pure_def,Option.some.injEq,
    Prod.exists,Row.mk.injEq]
  constructor
  · rintro ⟨flags,flagged,read,spaced,skipped,gapped,passed,inputs,padded,marked,crossed,arrow,
      outputs,tail,ended,rfl,rfl,rfl,rfl,rfl⟩
    exact ⟨flagged,spaced,_,gapped,padded,crossed,tail,read,skipped,rfl,passed,marked,arrow,ended,rfl⟩
  · rintro ⟨flagged,spaced,named,gapped,padded,crossed,tail,read,skipped,cut,passed,marked,arrow,
      ended,trimmed⟩
    exact ⟨flags,flagged,read,spaced,skipped,gapped,by rw [cut]; exact passed,inputs,padded,marked,
      crossed,arrow,outputs,tail,ended,by rw [cut],rfl,rfl,rfl,trimmed⟩

theorem written_of_row? (read : row? line = some row) : Written line row := by
  obtain ⟨flagged,spaced,named,gapped,padded,crossed,tail,read,skipped,cut,passed,marked,arrow,
    ended,trimmed⟩ := row?_passes.mp read
  obtain ⟨lead,start,blankLead,-⟩ := (dropWhile_eq_iff (p := isBlank) (s := line)).mp rfl
  obtain ⟨first,rfl,someFirst,blankFirst,solidFirst⟩ := skipBlanks?_some.mp skipped
  obtain ⟨rfl,solid,-⟩ := span_eq_iff.mp cut
  obtain ⟨second,rfl,someSecond,blankSecond,-⟩ := skipBlanks?_some.mp passed
  obtain ⟨rfl,someInputs,inputs,-⟩ := padMarks?_some.mp marked
  obtain rfl := arrow?_some.mp arrow
  obtain ⟨rfl,someOutputs,outputs,ends⟩ := padMarks?_some.mp ended
  obtain ⟨before,after,rfl,blankBefore,blankAfter,trimmed⟩ := trim_eq_iff.mp trimmed
  -- Nothing is left for a name only if the blanks before it have taken those behind it.
  have named : row.name ≠ [] := by
    intro empty
    cases second with
    | nil => exact someSecond rfl
    | cons c more =>
      rw [empty,List.nil_append,List.cons_append,stops_cons,blankSecond c (by simp)] at solidFirst
      cases solidFirst
  have marks : ∀ c ∈ row.inputs ++ row.outputs, isPadMark c = true := by
    simpa [or_imp,forall_and] using ⟨inputs,outputs⟩
  refine ⟨⟨lead,row.flags,first,row.name,second,row.inputs,row.outputs,before,row.description,after,
    ⟨blankLead,blankFirst,blankSecond,blankBefore,blankAfter⟩,⟨someFirst,someSecond⟩,named,
    by simpa using solid,fun c inside => isPadMark_iff.mp (marks c inside),⟨someInputs,someOutputs⟩,
    ends,trimmed⟩,?_,rfl⟩
  rw [start,flags?_some.mp read]
  simp [Columns.text]

theorem Columns.row?_text (columns : Columns) : row? columns.text = some columns.row := by
  obtain ⟨blankLead,blankFirst,blankSecond,blankBefore,blankAfter⟩ := columns.blanks
  have marks : ∀ c ∈ columns.inputs ++ columns.outputs, isPadMark c = true :=
    fun c inside => isPadMark_iff.mpr (columns.marks c inside)
  simp only [List.mem_append,or_imp,forall_and] at marks
  let tail := columns.before ++ columns.description ++ columns.after
  let crossed := columns.outputs ++ tail
  let gapped := columns.inputs ++ ('-' :: '>' :: crossed)
  let spaced := columns.name ++ (columns.second ++ gapped)
  have solidFlags : Stops isBlank ([column 'T' columns.flags.timeline,
      column 'S' columns.flags.sliceThreads,column 'C' columns.flags.command] ++
        (columns.first ++ spaced)) :=
    stops_cons.mpr (column_solid 'T' _ (by decide))
  have solidName : Stops isBlank spaced := (stops_of_all columns.solid).append columns.named
  have blankGap : Stops (fun c => !isBlank c) (columns.second ++ gapped) :=
    (stops_of_all fun c inside => by simp [blankSecond c inside]).append columns.gaps.2
  have solidMarks : Stops isBlank gapped :=
    (stops_of_all fun c inside => isBlank_of_mark (marks.1 c inside)).append columns.padded.1
  have noMark : Stops isPadMark ('-' :: '>' :: crossed) := stops_cons.mpr rfl
  refine row?_passes.mpr ⟨columns.first ++ spaced,spaced,columns.second ++ gapped,gapped,
    '-' :: '>' :: crossed,crossed,tail,?_,
    skipBlanks?_some.mpr ⟨columns.first,rfl,columns.gaps.1,blankFirst,solidName⟩,
    span_eq_iff.mpr ⟨rfl,by simpa [Columns.row] using columns.solid,blankGap⟩,
    skipBlanks?_some.mpr ⟨columns.second,rfl,columns.gaps.2,blankSecond,solidMarks⟩,
    padMarks?_some.mpr ⟨rfl,columns.padded.1,marks.1,noMark⟩,rfl,
    padMarks?_some.mpr ⟨rfl,columns.padded.2,marks.2,columns.ends⟩,
    trim_eq_iff.mpr ⟨columns.before,columns.after,rfl,blankBefore,blankAfter,columns.trimmed⟩⟩
  rw [flags?_some]
  refine dropWhile_eq_iff.mpr ⟨columns.lead,?_,blankLead,solidFlags⟩
  simp [Columns.text,Columns.row,spaced,gapped,crossed,tail]

/-- A line is read as a row exactly if it is one. -/
theorem row?_iff : row? line = some row ↔ Written line row := by
  constructor
  · exact written_of_row?
  · rintro ⟨columns,rfl,rfl⟩
    exact columns.row?_text

theorem not_blank (written : Written line row) : ¬ Blank line := by
  obtain ⟨columns,rfl,-⟩ := written
  intro blank
  have flag := blank (column 'T' columns.flags.timeline) (by simp [Columns.text])
  rw [column_solid 'T' _ (by decide)] at flag
  cases flag

theorem Written.unique {other : Row} (written : Written line row) (again : Written line other) :
    row = other :=
  Option.some.inj ((row?_iff.mpr written).symm.trans (row?_iff.mpr again))

end Rows

section Pads
variable {marks : List Char} {found : Pads}

theorem map_ok {α β ε : Type} {f : α → β} {first : Except ε α} {result : β} :
    first.map f = .ok result ↔ ∃ value, first = .ok value ∧ f value = result := by
  cases first <;> simp [Except.map]

theorem media_ok {kinds : List Media} : media marks = .ok kinds ↔ List.Forall₂ Letter marks kinds := by
  induction marks generalizing kinds with
  | nil => simp [media,eq_comm]
  | cons c more ih =>
    rw [List.forall₂_cons_left_iff]
    by_cases video : c = 'V'
    · subst video
      simp only [media,map_ok,ih]
      constructor
      · rintro ⟨rest,all,rfl⟩
        exact ⟨.video,rest,.video,all,rfl⟩
      · rintro ⟨_,rest,⟨⟩,all,rfl⟩
        exact ⟨rest,all,rfl⟩
    by_cases audio : c = 'A'
    · subst audio
      simp only [media,map_ok,ih]
      constructor
      · rintro ⟨rest,all,rfl⟩
        exact ⟨.audio,rest,.audio,all,rfl⟩
      · rintro ⟨_,rest,⟨⟩,all,rfl⟩
        exact ⟨rest,all,rfl⟩
    rw [media.eq_4 c more video audio]
    constructor
    · nofun
    · rintro ⟨_,_,letter,-,-⟩
      cases letter with
      | video => exact absurd rfl video
      | audio => exact absurd rfl audio

theorem pads_ok : pads marks = .ok found ↔ Stands marks found := by
  constructor
  · intro read
    unfold pads at read
    split at read
    · exact Except.ok.inj read ▸ .none
    · exact Except.ok.inj read ▸ .dynamic
    · obtain ⟨kinds,all,rfl⟩ := map_ok.mp read
      exact .fixed (media_ok.mp all)
  · intro stands
    cases stands with
    | none => rfl
    | dynamic => rfl
    | fixed all =>
      rw [pads.eq_3]
      · rw [media_ok.mpr all]
        rfl
      · rintro rfl
        cases all with
        | cons letter _ => cases letter
      · rintro rfl
        cases all with
        | cons letter _ => cases letter

theorem letters_iff :
    (∃ kinds, List.Forall₂ Letter marks kinds) ↔ ∀ c ∈ marks, c = 'V' ∨ c = 'A' := by
  constructor
  · rintro ⟨kinds,all⟩
    induction all with
    | nil => nofun
    | cons letter _ ih =>
      refine List.forall_mem_cons.mpr ⟨?_,ih⟩
      cases letter
      · exact .inl rfl
      · exact .inr rfl
  · intro all
    induction marks with
    | nil => exact ⟨[],.nil⟩
    | cons c more ih =>
      obtain ⟨kinds,rest⟩ := ih fun d inside => all d (List.mem_cons_of_mem c inside)
      rcases all c List.mem_cons_self with rfl | rfl
      · exact ⟨.video :: kinds,.cons .video rest⟩
      · exact ⟨.audio :: kinds,.cons .audio rest⟩

theorem legible_iff : Legible marks ↔ ∃ pads, Stands marks pads := by
  rw [Legible,← letters_iff]
  constructor
  · rintro (rfl | rfl | ⟨kinds,all⟩)
    · exact ⟨.none,.none⟩
    · exact ⟨.dynamic,.dynamic⟩
    · exact ⟨.fixed kinds,.fixed all⟩
  · rintro ⟨_,stands⟩
    cases stands with
    | none => exact .inl rfl
    | dynamic => exact .inr (.inl rfl)
    | fixed all => exact .inr (.inr ⟨_,all⟩)

theorem bind_ok {α β ε : Type} {first : Except ε α} {next : α → Except ε β} {result : β} :
    first >>= next = .ok result ↔ ∃ value, first = .ok value ∧ next value = .ok result := by
  cases first <;> simp [bind,Except.bind]

theorem mapError_ok {α ε δ : Type} {f : ε → δ} {first : Except ε α} {result : α} :
    first.mapError f = .ok result ↔ first = .ok result := by
  cases first <;> simp [Except.mapError]

theorem spec_ok {row : Row} {line : Nat} {spec : FilterSpec} :
    row.spec line = .ok spec ↔ row.Means spec := by
  simp only [Row.spec,bind_ok,mapError_ok,pads_ok,pure,Except.pure,Except.ok.injEq]
  constructor
  · rintro ⟨inputs,readInputs,outputs,readOutputs,rfl⟩
    exact ⟨rfl,rfl,readInputs,readOutputs,rfl⟩
  · obtain ⟨name,description,inputs,outputs,flags⟩ := spec
    rintro ⟨rfl,rfl,readInputs,readOutputs,rfl⟩
    exact ⟨inputs,readInputs,outputs,readOutputs,rfl⟩

theorem means_iff {row : Row} :
    (∃ spec, row.Means spec) ↔ Legible row.inputs ∧ Legible row.outputs := by
  rw [legible_iff,legible_iff]
  constructor
  · rintro ⟨spec,means⟩
    exact ⟨⟨_,means.inputs⟩,⟨_,means.outputs⟩⟩
  · rintro ⟨⟨inputs,readInputs⟩,outputs,readOutputs⟩
    exact ⟨⟨_,_,inputs,outputs,row.flags⟩,rfl,rfl,readInputs,readOutputs,rfl⟩

end Pads

section Tables
variable {inside : Bool} {line : Nat} {text : List Char} {more : List (List Char)}

theorem rows_blank (blank : Blank text) :
    rows inside line (text :: more) = rows inside (line + 1) more := by
  rw [rows,if_pos (List.all_eq_true.mpr blank)]

theorem rows_row {row : Row} (written : Written text row) :
    rows inside line (text :: more) = (do
      let spec ← row.spec line
      let specs ← rows true (line + 1) more
      return spec :: specs) := by
  have solid : ¬ text.all isBlank = true := fun all => not_blank written (List.all_eq_true.mp all)
  rw [rows,if_neg solid,row?_iff.mpr written]

theorem rows_other (solid : ¬ Blank text) (other : ∀ row, ¬ Written text row) :
    rows inside line (text :: more) =
      if inside then .error (.notARow line (String.ofList text)) else rows inside (line + 1) more := by
  have fails : row? text = none := by
    rw [Option.eq_none_iff_forall_ne_some]
    exact fun row read => other row (row?_iff.mp read)
  rw [rows,if_neg fun all => solid (List.all_eq_true.mp all),fails]

theorem filled_cons : Filled (text :: more) ↔
    (Blank text ∨ ∃ row, Written text row) ∧ Filled more :=
  List.forall_mem_cons

theorem closed_cons : Closed (text :: more) ↔
    ((∃ row, Written text row) → Filled more) ∧ Closed more := by
  constructor
  · intro closed
    refine ⟨closed [] text more rfl,fun before first after split => ?_⟩
    exact closed (text :: before) first after (by rw [split]; rfl)
  · rintro ⟨front,rest⟩ before first after split row
    cases before with
    | nil =>
      obtain ⟨rfl,rfl⟩ := List.cons.inj split
      exact front row
    | cons _ before =>
      obtain ⟨rfl,rfl⟩ := List.cons.inj split
      exact rest before first after rfl row

theorem closed_of_filled (filled : Filled more) : Closed more := by
  rintro before first after rfl -
  exact fun line inside => filled line (by simp [inside])

theorem lists_other {specs : List FilterSpec} (other : ∀ row, ¬ Written text row) :
    Lists (text :: more) specs ↔ Lists more specs := by
  constructor
  · intro lists
    cases lists with
    | row written _ _ => exact absurd written (other _)
    | other _ rest => exact rest
  · exact .other other

theorem lists_row {row : Row} {specs : List FilterSpec} (written : Written text row) :
    Lists (text :: more) specs ↔
      ∃ spec rest, specs = spec :: rest ∧ row.Means spec ∧ Lists more rest := by
  constructor
  · intro lists
    cases lists with
    | row again means rest => exact ⟨_,_,rfl,written.unique again ▸ means,rest⟩
    | other none _ => exact absurd written (none row)
  · rintro ⟨spec,rest,rfl,means,lists⟩
    exact .row written means lists

theorem Lists.some_iff {lines : List (List Char)} {specs : List FilterSpec} (lists : Lists lines specs) :
    specs ≠ [] ↔ ∃ line ∈ lines, ∃ row, Written line row := by
  induction lists with
  | nil => simp
  | row written _ _ _ => simpa using .inl ⟨_,written⟩
  | other none _ ih => simp [ih,none]

theorem lists_iff {lines : List (List Char)} : (∃ specs, Lists lines specs) ↔
    ∀ line ∈ lines, ∀ row, Written line row → Legible row.inputs ∧ Legible row.outputs := by
  induction lines with
  | nil => exact ⟨fun _ => nofun,fun _ => ⟨[],.nil⟩⟩
  | cons text more ih =>
    rw [List.forall_mem_cons,← ih]
    by_cases written : ∃ row, Written text row
    · obtain ⟨row,written⟩ := written
      have only : (∀ row, Written text row → Legible row.inputs ∧ Legible row.outputs) ↔
          ∃ spec, row.Means spec := by
        rw [means_iff]
        exact ⟨fun all => all row written,fun legible other again => again.unique written ▸ legible⟩
      rw [only]
      simp only [lists_row written]
      constructor
      · rintro ⟨_,spec,rest,rfl,means,lists⟩
        exact ⟨⟨spec,means⟩,rest,lists⟩
      · rintro ⟨⟨spec,means⟩,rest,lists⟩
        exact ⟨_,spec,rest,rfl,means,lists⟩
    · simp only [not_exists] at written
      simp [lists_other written,written]

theorem rows_ok {specs : List FilterSpec} {lines : List (List Char)} :
    rows inside line lines = .ok specs ↔
      Lists lines specs ∧ Closed lines ∧ (inside = true → Filled lines) := by
  induction lines generalizing inside line specs with
  | nil =>
    have closed : Closed [] := fun before first after split => by simp at split
    have filled : Filled [] := nofun
    simp only [rows,Except.ok.injEq,closed,filled,implies_true,and_true]
    constructor
    · rintro rfl
      exact .nil
    · intro lists
      cases lists
      rfl
  | cons text more ih =>
    by_cases blank : Blank text
    · have other (row : Row) : ¬ Written text row := fun written => not_blank written blank
      rw [rows_blank blank,ih,lists_other other,closed_cons,filled_cons]
      simp [blank,other]
    by_cases written : ∃ row, Written text row
    · have filled : Filled (text :: more) ↔ Filled more := by simp [filled_cons,written]
      have closed : Closed (text :: more) ↔ Filled more := by
        rw [closed_cons]
        exact ⟨fun both => both.1 written,fun all => ⟨fun _ => all,closed_of_filled all⟩⟩
      obtain ⟨row,written⟩ := written
      simp only [rows_row written,bind_ok,spec_ok,ih,lists_row written,closed,filled,pure,Except.pure,
        Except.ok.injEq,forall_const]
      constructor
      · rintro ⟨spec,means,rest,⟨lists,-,all⟩,rfl⟩
        exact ⟨⟨spec,rest,rfl,means,lists⟩,all,fun _ => all⟩
      · rintro ⟨⟨spec,rest,rfl,means,lists⟩,all,-⟩
        exact ⟨spec,means,rest,⟨lists,closed_of_filled all,all⟩,rfl⟩
    · simp only [not_exists] at written
      rw [rows_other blank written,lists_other written,closed_cons,filled_cons]
      cases inside
      · simp [ih,written]
      · simp [blank,written]

theorem read_ok {text : String} {specs : List FilterSpec} :
    read text = .ok specs ↔ specs ≠ [] ∧ rows false 1 (lines text.toList) = .ok specs := by
  rw [read,bind_ok]
  constructor
  · rintro ⟨found,whole,result⟩
    split at result
    · cases result
    next some =>
      obtain rfl := Except.ok.inj result
      exact ⟨some,whole⟩
  · rintro ⟨some,whole⟩
    refine ⟨specs,whole,?_⟩
    split
    · exact absurd rfl some
    · rfl

theorem read_iff {text : String} {specs : List FilterSpec} : read text = .ok specs ↔
    Tabular (lines text.toList) ∧ Lists (lines text.toList) specs := by
  rw [read_ok,rows_ok]
  constructor
  · rintro ⟨some,lists,closed,-⟩
    exact ⟨⟨lists.some_iff.mp some,closed,lists_iff.mp ⟨specs,lists⟩⟩,lists⟩
  · rintro ⟨tabular,lists⟩
    exact ⟨lists.some_iff.mpr tabular.present,lists,tabular.closed,nofun⟩

end Tables

end MediaGraph.Catalog.Listing
