/-!
# Terminals: the words of the theory language

A theory is written with names, numbers, quoted strings, marks and keywords.
The three enumerations below are the whole vocabulary.  Two renderings matter
to readers of reports and are kept apart here:

  * `Terminal.name` is what a terminal is called in a token listing
    (`COLON`, `IDENT`, `THEORY`);
  * `Lookahead.label` is what an "expecting" list shows (`':'`, `IDENT`,
    `'THEORY'`, and `<EOF>` for the end of the text).
-/

namespace PvsIndex

/-- The reserved words. -/
inductive Keyword where
  | THEORY | BEGIN | END | IMPORTING | TYPE | NONEMPTY_TYPE | FROM | VAR
  | AXIOM | CHALLENGE | CLAIM | CONJECTURE | COROLLARY | FACT | FORMULA | LAW | LEMMA
  | OBLIGATION | POSTULATE | PROPOSITION | SUBLEMMA | THEOREM
  | FORALL | EXISTS | LAMBDA | IFF | IMPLIES | OR | AND | NOT | TRUE | FALSE
  | IF | THEN | ELSIF | ELSE | ENDIF
deriving DecidableEq

namespace Keyword

/-- A keyword as it is written in a report: in capitals. -/
def spelling : Keyword → String
  | THEORY => "THEORY"
  | BEGIN => "BEGIN"
  | END => "END"
  | IMPORTING => "IMPORTING"
  | TYPE => "TYPE"
  | NONEMPTY_TYPE => "NONEMPTY_TYPE"
  | FROM => "FROM"
  | VAR => "VAR"
  | AXIOM => "AXIOM"
  | CHALLENGE => "CHALLENGE"
  | CLAIM => "CLAIM"
  | CONJECTURE => "CONJECTURE"
  | COROLLARY => "COROLLARY"
  | FACT => "FACT"
  | FORMULA => "FORMULA"
  | LAW => "LAW"
  | LEMMA => "LEMMA"
  | OBLIGATION => "OBLIGATION"
  | POSTULATE => "POSTULATE"
  | PROPOSITION => "PROPOSITION"
  | SUBLEMMA => "SUBLEMMA"
  | THEOREM => "THEOREM"
  | FORALL => "FORALL"
  | EXISTS => "EXISTS"
  | LAMBDA => "LAMBDA"
  | IFF => "IFF"
  | IMPLIES => "IMPLIES"
  | OR => "OR"
  | AND => "AND"
  | NOT => "NOT"
  | TRUE => "TRUE"
  | FALSE => "FALSE"
  | IF => "IF"
  | THEN => "THEN"
  | ELSIF => "ELSIF"
  | ELSE => "ELSE"
  | ENDIF => "ENDIF"

/-- Every keyword, in the order of the enumeration. -/
def all : List Keyword :=
  [THEORY, BEGIN, END, IMPORTING, TYPE, NONEMPTY_TYPE, FROM, VAR,
   AXIOM, CHALLENGE, CLAIM, CONJECTURE, COROLLARY, FACT, FORMULA, LAW, LEMMA,
   OBLIGATION, POSTULATE, PROPOSITION, SUBLEMMA, THEOREM,
   FORALL, EXISTS, LAMBDA, IFF, IMPLIES, OR, AND, NOT, TRUE, FALSE,
   IF, THEN, ELSIF, ELSE, ENDIF]

/-- Every keyword, longer spellings first. -/
def longestFirst : List Keyword :=
  [NONEMPTY_TYPE, PROPOSITION, CONJECTURE, OBLIGATION,
   CHALLENGE, COROLLARY, IMPORTING, POSTULATE, SUBLEMMA, FORMULA, IMPLIES, THEOREM,
   EXISTS, FORALL, LAMBDA, THEORY, AXIOM, BEGIN, CLAIM, ELSIF, ENDIF, FALSE, LEMMA,
   ELSE, FACT, FROM, THEN, TRUE, TYPE, AND, END, IFF, LAW, NOT, VAR, IF, OR]

/-- The keywords that announce a formula. -/
def formulas : List Keyword :=
  [AXIOM, CHALLENGE, CLAIM, CONJECTURE, COROLLARY, FACT, FORMULA, LAW, LEMMA,
   OBLIGATION, POSTULATE, PROPOSITION, SUBLEMMA, THEOREM]

/-- The position of a keyword among all of them. -/
def index (k : Keyword) : Nat :=
  k.ctorIdx

theorem all_index (k : Keyword) : all[k.index]? = some k := by cases k <;> rfl

theorem mem_longestFirst (k : Keyword) : k ∈ longestFirst := by cases k <;> decide

end Keyword

/-- Punctuation and operators. -/
inductive Mark where
  | colon | comma | lsquare | rsquare | lparen | rparen | lbrace | rbrace | bar | equal
  | plus | minus | asterisk | slash | ampersand | less | greater
  | arrow | equivalent | implies | unequal | atMost | atLeast
deriving DecidableEq

namespace Mark

/-- A mark as it is written in a text. -/
def spelling : Mark → String
  | colon => ":"
  | comma => ","
  | lsquare => "["
  | rsquare => "]"
  | lparen => "("
  | rparen => ")"
  | lbrace => "\x7b"
  | rbrace => "\x7d"
  | bar => "|"
  | equal => "="
  | plus => "+"
  | minus => "-"
  | asterisk => "*"
  | slash => "/"
  | ampersand => "&"
  | less => "<"
  | greater => ">"
  | arrow => "->"
  | equivalent => "<=>"
  | implies => "=>"
  | unequal => "/="
  | atMost => "<="
  | atLeast => ">="

/-- What a mark is called in a token listing. -/
def name : Mark → String
  | colon => "COLON"
  | comma => "COMMA"
  | lsquare => "LSQB"
  | rsquare => "RSQB"
  | lparen => "LPAR"
  | rparen => "RPAR"
  | lbrace => "LBRACE"
  | rbrace => "RBRACE"
  | bar => "VBAR"
  | equal => "EQUAL"
  | plus => "PLUS"
  | minus => "MINUS"
  | asterisk => "STAR"
  | slash => "SLASH"
  | ampersand => "AMPERSAND"
  | less => "LESSTHAN"
  | greater => "MORETHAN"
  | arrow => "__ANON_0"
  | equivalent => "__ANON_1"
  | implies => "__ANON_2"
  | unequal => "__ANON_3"
  | atMost => "__ANON_4"
  | atLeast => "__ANON_5"

/-- Every mark, in the order of the enumeration. -/
def all : List Mark :=
  [colon, comma, lsquare, rsquare, lparen, rparen, lbrace, rbrace, bar, equal,
   plus, minus, asterisk, slash, ampersand, less, greater,
   arrow, equivalent, implies, unequal, atMost, atLeast]

/-- Every mark, longer spellings first. -/
def longestFirst : List Mark :=
  [equivalent, arrow, implies, unequal, atMost, atLeast,
   colon, comma, lsquare, rsquare, lparen, rparen, lbrace, rbrace, bar, equal,
   plus, minus, asterisk, slash, ampersand, less, greater]

/-- The position of a mark among all of them. -/
def index (m : Mark) : Nat :=
  m.ctorIdx

theorem all_index (m : Mark) : all[m.index]? = some m := by cases m <;> rfl

theorem mem_longestFirst (m : Mark) : m ∈ longestFirst := by cases m <;> decide

end Mark

/-- What the grammar is written over: classes of words, marks and keywords. -/
inductive Terminal where
  | ident
  | number
  | string
  | mark (m : Mark)
  | keyword (k : Keyword)
deriving DecidableEq

namespace Terminal

/-- Every terminal: the open classes, then the marks, then the keywords. -/
def all : List Terminal :=
  [ident, number, string] ++ Mark.all.map mark ++ Keyword.all.map keyword

/-- What a terminal is called in a token listing. -/
def name : Terminal → String
  | ident => "IDENT"
  | number => "NUMBER"
  | string => "STRING"
  | mark m => m.name
  | keyword k => k.spelling

/-- What an "expecting" list shows: fixed words in quotes, open classes by name. -/
def label : Terminal → String
  | ident => "IDENT"
  | number => "NUMBER"
  | string => "STRING"
  | mark m => "'" ++ m.spelling ++ "'"
  | keyword k => "'" ++ k.spelling ++ "'"

/-- How many terminals there are. -/
def count : Nat := 63

/-- The position of a terminal among all of them. -/
def index : Terminal → Nat
  | ident => 0
  | number => 1
  | string => 2
  | mark m => 3 + m.index
  | keyword k => 26 + k.index

theorem length_all : all.length = count := rfl

theorem all_index (t : Terminal) : all[t.index]? = some t := by
  cases t with
  | mark m => cases m <;> rfl
  | keyword k => cases k <;> rfl
  | _ => rfl

theorem index_lt_count (t : Terminal) : t.index < count := by
  obtain ⟨h, _⟩ := List.getElem?_eq_some_iff.mp t.all_index
  exact h

theorem mem_all (t : Terminal) : t ∈ all :=
  List.mem_of_getElem? t.all_index

end Terminal

/-- What stands ahead of a reader: a terminal, or nothing more. -/
inductive Lookahead where
  | terminal (t : Terminal)
  | endOfText
deriving DecidableEq

namespace Lookahead

/-- Every lookahead. -/
def all : List Lookahead :=
  Terminal.all.map terminal ++ [endOfText]

/-- What a lookahead is called in a token listing. -/
def name : Lookahead → String
  | terminal t => t.name
  | endOfText => "$END"

/-- How the end of the text is shown. -/
def endLabel : String := "<EOF>"

/-- What an "expecting" list shows. -/
def label : Lookahead → String
  | terminal t => t.label
  | endOfText => endLabel

/-- The position of a lookahead among all of them. -/
def index : Lookahead → Nat
  | terminal t => t.index
  | endOfText => Terminal.count

theorem all_index (a : Lookahead) : all[a.index]? = some a := by
  cases a with
  | terminal t =>
    have h : t.index < (Terminal.all.map terminal).length := by
      rw [List.length_map, Terminal.length_all]; exact t.index_lt_count
    rw [all, index, List.getElem?_append_left h, List.getElem?_map, t.all_index]
    rfl
  | endOfText => rfl

theorem mem_all (a : Lookahead) : a ∈ all :=
  List.mem_of_getElem? a.all_index

end Lookahead

end PvsIndex
