import MediaGraph.Proofs.Listings

/-! Tables of filters as they are written.
What a writer may choose freely, the gaps between columns, the legend, blank lines and how a line
ends, makes no difference to what is read. -/
namespace MediaGraph.Catalog.Listing
open Text

section Endings
variable {line tail : List Char} {row : Row}

def Columns.front (columns : Columns) : List Char :=
  columns.lead ++
    [column 'T' columns.flags.timeline,column 'S' columns.flags.sliceThreads,
      column 'C' columns.flags.command] ++
    columns.first ++ columns.name ++ columns.second ++ columns.inputs ++ ['-','>'] ++ columns.outputs

theorem written_iff : Written line row ↔ ∃ columns : Columns, ∃ tail, columns.row = row ∧
    line = columns.front ++ tail ∧ trim tail = row.description ∧ Stops isPadMark tail := by
  constructor
  · rintro ⟨columns,rfl,rfl⟩
    refine ⟨columns,columns.before ++ columns.description ++ columns.after,rfl,?_,?_,columns.ends⟩
    · simp [Columns.text,Columns.front]
    · obtain ⟨-,-,-,before,after⟩ := columns.blanks
      exact trim_eq_iff.mpr ⟨_,_,rfl,before,after,columns.trimmed⟩
  · rintro ⟨columns,tail,rfl,rfl,description,ends⟩
    obtain ⟨before,after,rfl,blankBefore,blankAfter,trimmed⟩ := trim_eq_iff.mp description
    obtain ⟨lead,first,second,-,-⟩ := columns.blanks
    refine ⟨{ columns with
      before := before
      after := after
      blanks := ⟨lead,first,second,blankBefore,blankAfter⟩
      ends := ends },?_,rfl⟩
    simp [Columns.text,Columns.front,Columns.row]

theorem Columns.front_ends (columns : Columns) : columns.front.getLast? ≠ some '\r' := by
  intro last
  have some := columns.padded.2
  rw [Columns.front,List.getLast?_append_of_ne_nil _ some] at last
  have mark := columns.marks '\r' (List.mem_append_right _ (List.mem_of_getLast? last))
  simp at mark

theorem written_return : Written (line ++ ['\r']) row ↔ Written line row := by
  have blank : Blank ['\r'] := by
    intro c inside
    rw [List.mem_singleton.mp inside]
    rfl
  rw [written_iff,written_iff]
  constructor
  · rintro ⟨columns,tail,same,whole,description,ends⟩
    rcases List.eq_nil_or_concat tail with rfl | ⟨rest,c,rfl⟩
    · refine absurd ?_ columns.front_ends
      rw [List.append_nil] at whole
      simp [← whole]
    · rw [List.concat_eq_append] at *
      rw [← List.append_assoc] at whole
      obtain ⟨rfl,last⟩ := List.append_inj' whole rfl
      rw [← last,trim_append rest blank] at description
      exact ⟨columns,rest,same,rfl,description,ends.of_append⟩
  · rintro ⟨columns,tail,same,rfl,description,ends⟩
    refine ⟨columns,tail ++ ['\r'],same,by simp,by rw [trim_append tail blank,description],?_⟩
    cases tail with
    | nil => exact stops_cons.mpr rfl
    | cons c more => exact stops_cons.mpr (stops_cons.mp ends)

theorem written_dropReturn : Written (dropReturn line) row ↔ Written line row := by
  rcases dropReturn_cases line with same | same
  · rw [same]
  · conv_rhs => rw [same]
    exact written_return.symm

end Endings

structure Blanks where
  chars : List Char
  blank : Blank chars
  flat : '\n' ∉ chars

/-- The space between two columns. -/
structure Gap extends Blanks where
  wide : chars ≠ []

inductive Writable : Pads → Prop
  | none : Writable .none
  | dynamic : Writable .dynamic
  | fixed {kinds : List Media} :
    kinds ≠ [] → (∀ kind ∈ kinds, kind = .video ∨ kind = .audio) → Writable (.fixed kinds)

def letter : Media → Char
  | .video => 'V'
  | _ => 'A'

def marks : Pads → List Char
  | .none => ['|']
  | .dynamic => ['N']
  | .fixed kinds => kinds.map letter

/-- A filter and how its columns are spaced. A carriage return may stand in `tail`. -/
structure Entry where
  spec : FilterSpec
  lead : Blanks
  first : Gap
  second : Gap
  third : Gap
  tail : Blanks
  named : spec.name.toList ≠ []
  solid : ∀ c ∈ spec.name.toList, isBlank c = false
  inputs : Writable spec.inputs
  outputs : Writable spec.outputs
  trimmed : Trimmed spec.description.toList
  flat : '\n' ∉ spec.description.toList

section Writing
variable {pads : Pads}

theorem Writable.stands (writable : Writable pads) : Stands (marks pads) pads := by
  cases writable with
  | none => exact .none
  | dynamic => exact .dynamic
  | @fixed kinds _ all =>
    refine .fixed ?_
    rw [marks,List.forall₂_map_left_iff,List.forall₂_same]
    intro kind inside
    rcases all kind inside with rfl | rfl
    · exact .video
    · exact .audio

theorem Writable.some (writable : Writable pads) : marks pads ≠ [] := by
  cases writable with
  | none => simp [marks]
  | dynamic => simp [marks]
  | fixed some _ => simpa [marks] using some

theorem letter_mark (kind : Media) : letter kind ∈ ['A','V','N','|'] := by
  cases kind <;> decide

theorem marks_mark (pads : Pads) : ∀ c ∈ marks pads, c ∈ ['A','V','N','|'] := by
  cases pads with
  | none => simp [marks]
  | dynamic => simp [marks]
  | fixed kinds =>
    intro c inside
    obtain ⟨kind,-,rfl⟩ := List.mem_map.mp inside
    exact letter_mark kind

end Writing

namespace Entry

def columns (entry : Entry) : Columns where
  lead := entry.lead.chars
  flags := entry.spec.flags
  first := entry.first.chars
  name := entry.spec.name.toList
  second := entry.second.chars
  inputs := marks entry.spec.inputs
  outputs := marks entry.spec.outputs
  before := entry.third.chars
  description := entry.spec.description.toList
  after := entry.tail.chars
  blanks := ⟨entry.lead.blank,entry.first.blank,entry.second.blank,entry.third.blank,entry.tail.blank⟩
  gaps := ⟨entry.first.wide,entry.second.wide⟩
  named := entry.named
  solid := entry.solid
  marks := fun c inside => (List.mem_append.mp inside).elim (marks_mark _ c) (marks_mark _ c)
  padded := ⟨entry.inputs.some,entry.outputs.some⟩
  ends := by
    rw [List.append_assoc]
    refine (stops_of_all fun c inside => ?_).append entry.third.wide
    cases mark : isPadMark c with
    | false => rfl
    | true => exact absurd (entry.third.blank c inside) (by simp [isBlank_of_mark mark])
  trimmed := entry.trimmed

theorem means (entry : Entry) : entry.columns.row.Means entry.spec where
  name := by simp [columns,Columns.row]
  flags := rfl
  inputs := entry.inputs.stands
  outputs := entry.outputs.stands
  description := by simp [columns,Columns.row]

theorem flat_text (entry : Entry) : '\n' ∉ entry.columns.text := by
  have name : '\n' ∉ entry.spec.name.toList := fun inside => by
    have solid := entry.solid '\n' inside
    cases solid
  have inputs : '\n' ∉ marks entry.spec.inputs := fun inside => by
    simpa using marks_mark _ _ inside
  have outputs : '\n' ∉ marks entry.spec.outputs := fun inside => by
    simpa using marks_mark _ _ inside
  have flag {letter : Char} (set : Bool) (other : '\n' ≠ letter) : '\n' ≠ column letter set := by
    cases set
    · simp [column]
    · exact other
  simp [Columns.text,columns,entry.lead.flat,entry.first.flat,entry.second.flat,entry.third.flat,
    entry.tail.flat,entry.flat,name,inputs,outputs,flag _ (show '\n' ≠ 'T' by decide),
    flag _ (show '\n' ≠ 'S' by decide),flag _ (show '\n' ≠ 'C' by decide)]

end Entry

inductive Item where
  | blank (line : Blanks)
  | entry (entry : Entry)

namespace Item

def text : Item → List Char
  | .blank line => line.chars
  | .entry row => row.columns.text

def spec? : Item → Option FilterSpec
  | .blank _ => none
  | .entry row => some row.spec

theorem flat_text (item : Item) : '\n' ∉ item.text := by
  cases item with
  | blank line => exact line.flat
  | entry row => exact row.flat_text

def Holds (item : Item) (line : List Char) : Prop :=
  match item with
  | .blank _ => Blank line
  | .entry row => Written line row.columns.row

theorem holds_text (item : Item) : item.Holds item.text := by
  cases item with
  | blank line => exact line.blank
  | entry row => exact ⟨row.columns,rfl,rfl⟩

theorem Holds.dropReturn {item : Item} {line : List Char} (holds : item.Holds line) :
    item.Holds (dropReturn line) := by
  cases item with
  | blank _ => exact Blank.dropReturn holds
  | entry row => exact written_dropReturn.mpr holds

theorem rows_item {item : Item} {line : List Char} (holds : item.Holds line)
    {more : List (List Char)} {specs : List FilterSpec}
    (rest : ∀ inside number, rows inside number more = .ok specs) (inside : Bool) (number : Nat) :
    rows inside number (line :: more) = .ok (item.spec?.toList ++ specs) := by
  cases item with
  | blank _ => rw [rows_blank holds,rest]; rfl
  | entry row =>
    rw [rows_row holds,spec_ok.mpr row.means,rest]
    rfl

end Item

/-- A table that is written: lines that are no rows, then the filters with blank lines among them.
A text that ends with a line feed has an empty line as its last. -/
structure Sheet where
  legend : List (List Char)
  body : List Item
  passed : ∀ line ∈ legend, '\n' ∉ line ∧ ∀ row, ¬ Written line row
  listed : body.filterMap Item.spec? ≠ []

namespace Sheet

def specs (sheet : Sheet) : List FilterSpec := sheet.body.filterMap Item.spec?

def text (sheet : Sheet) : String :=
  String.ofList (join ['\n'] (sheet.legend ++ sheet.body.map Item.text))

end Sheet

theorem rows_body (body : List Item) (inside : Bool) (number : Nat) :
    rows inside number (lines (join ['\n'] (body.map Item.text))) =
      .ok (body.filterMap Item.spec?) := by
  induction body generalizing inside number with
  | nil => rfl
  | cons item more ih =>
    have specs : (item :: more).filterMap Item.spec? =
        item.spec?.toList ++ more.filterMap Item.spec? := by
      cases item <;> rfl
    rw [specs]
    cases more with
    | nil =>
      rw [List.map_singleton,join,lines_piece item.flat_text]
      by_cases empty : item.text = []
      · cases item with
        | blank line =>
          rw [empty]
          rfl
        | entry entry =>
          have blank : Blank entry.columns.text := by
            rw [show entry.columns.text = [] from empty]
            simp [Blank]
          exact absurd blank (not_blank ⟨entry.columns,rfl,rfl⟩)
      · rw [if_neg (by simpa using empty)]
        exact Item.rows_item item.holds_text (fun _ _ => rfl) inside number
    | cons next more =>
      rw [List.map_cons,lines_join item.flat_text (by simp)]
      exact Item.rows_item item.holds_text.dropReturn ih inside number

theorem read_text (sheet : Sheet) : read sheet.text = .ok sheet.specs := by
  rw [read_ok]
  refine ⟨sheet.listed,?_⟩
  have some : sheet.body ≠ [] := fun empty => sheet.listed (by rw [empty]; rfl)
  have through (legend : List (List Char)) (number : Nat)
      (passed : ∀ line ∈ legend, '\n' ∉ line ∧ ∀ row, ¬ Written line row) :
      rows false number (lines (join ['\n'] (legend ++ sheet.body.map Item.text))) =
        .ok sheet.specs := by
    induction legend generalizing number with
    | nil => exact rows_body sheet.body false number
    | cons line more ih =>
      obtain ⟨⟨flat,other⟩,passed⟩ := List.forall_mem_cons.mp passed
      rw [List.cons_append,lines_join flat (by simp [some])]
      have skipped (row : Row) : ¬ Written (dropReturn line) row :=
        fun written => other row (written_dropReturn.mp written)
      by_cases blank : Blank (dropReturn line)
      · rw [rows_blank blank,ih _ passed]
      · rw [rows_other blank skipped,if_neg (by simp),ih _ passed]
  rw [Sheet.text,String.toList_ofList]
  exact through sheet.legend 1 sheet.passed

/-- The texts that are read are the tables, and what is read are the filters of their rows; whatever
is written as a table is read again. -/
theorem read_exactly_tables (text : String) :
    ((∃ specs, read text = .ok specs) ↔ Tabular (lines text.toList)) ∧
    (∀ specs, read text = .ok specs ↔
      Tabular (lines text.toList) ∧ Lists (lines text.toList) specs) ∧
    ∀ sheet : Sheet, read sheet.text = .ok sheet.specs := by
  refine ⟨⟨?_,fun tabular => ?_⟩,fun specs => read_iff,read_text⟩
  · rintro ⟨specs,whole⟩
    exact (read_iff.mp whole).1
  · obtain ⟨specs,lists⟩ := lists_iff.mpr tabular.legible
    exact ⟨specs,read_iff.mpr ⟨tabular,lists⟩⟩

def overlayEntry : Entry where
  spec := ⟨"overlay","Lay a | over it.",.fixed [.video,.video],.fixed [.video],⟨true,true,false⟩⟩
  lead := ⟨[' '],by decide,by decide⟩
  first := ⟨⟨[' '],by decide,by decide⟩,by decide⟩
  second := ⟨⟨[' ',' '],by decide,by decide⟩,by decide⟩
  third := ⟨⟨[' ',' '],by decide,by decide⟩,by decide⟩
  tail := ⟨[' ','\r'],by decide,by decide⟩
  named := by decide
  solid := forall_false_of_all (by decide)
  inputs := .fixed (by decide) (by decide)
  outputs := .fixed (by decide) (by decide)
  trimmed := by decide
  flat := by decide

def splitEntry : Entry where
  spec := ⟨"split","",.fixed [.video],.dynamic,.clear⟩
  lead := ⟨[' '],by decide,by decide⟩
  first := ⟨⟨[' '],by decide,by decide⟩,by decide⟩
  second := ⟨⟨['\t'],by decide,by decide⟩,by decide⟩
  third := ⟨⟨[' '],by decide,by decide⟩,by decide⟩
  tail := ⟨[],by decide,by decide⟩
  named := by decide
  solid := forall_false_of_all (by decide)
  inputs := .fixed (by decide) (by decide)
  outputs := .dynamic
  trimmed := by decide
  flat := by decide

def sampler : Sheet where
  legend := ["Filters:\r".toList,"  T.. = Timeline support".toList]
  body := [.entry overlayEntry,.blank ⟨[],by decide,by decide⟩,.entry splitEntry]
  passed := by
    have other (line : List Char) (none : row? line = none) (row : Row) : ¬ Written line row := by
      rw [← row?_iff,none]
      nofun
    intro line member
    simp only [List.mem_cons,List.not_mem_nil,or_false] at member
    rcases member with rfl | rfl
    · exact ⟨by decide,other _ (by decide)⟩
    · exact ⟨by decide,other _ (by decide)⟩
  listed := by decide

theorem read_exactly_tables_sampler :
    sampler.text = "Filters:\r\n  T.. = Timeline support\n TS. overlay  VV->V  Lay a | over it. \r\n" ++
      "\n ... split\tV->N " ∧
    read sampler.text =
      .ok [⟨"overlay","Lay a | over it.",.fixed [.video,.video],.fixed [.video],⟨true,true,false⟩⟩,
        ⟨"split","",.fixed [.video],.dynamic,.clear⟩] ∧
    Tabular (lines sampler.text.toList) := by
  obtain ⟨tables,_,sheets⟩ := read_exactly_tables sampler.text
  have reads := sheets sampler
  exact ⟨by decide +kernel,reads,tables.mp ⟨_,reads⟩⟩

end MediaGraph.Catalog.Listing
