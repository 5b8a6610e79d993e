import CodeAtlas.Syntax.Rule

/-!
# The grammar of Go

Tokens and rules of Go source files, in the order in which tokens are numbered. The names of rules
are the kinds of nodes, and labels are the roles of their children.
-/

namespace CodeAtlas.Syntax.Go

open Rule

/-! ## Ranks -/

namespace Rank

/-- Rank of literals of composite types. -/
def composite : Int := -1

def or : Int := 1
def and : Int := 2
def comparison : Int := 3
def sum : Int := 4
def product : Int := 5
def unary : Int := 6

/-- Rank of calls, selectors and the like. -/
def primary : Int := 7

end Rank

/-! ## Parts of tokens -/

def octalDigit : Pattern := .one (.range '0' '7')

def hexDigit : Pattern := .one .hexDigits

/-- Digits, which may have an underscore between. -/
def underscored (digit : Pattern) : Pattern := digit ++ (Pattern.opt "_" ++ digit).many

def digits : Pattern := underscored (.one .digits)

def hexDigits : Pattern := underscored hexDigit

/-- A whole number. -/
def integer : Pattern :=
  ("0" ++ .anyOf "bB" ++ Pattern.opt "_" ++ underscored (.anyOf "01"))
    <|> (("0" : Pattern) <|> (.one (.range '1' '9') ++ (Pattern.opt "_" ++ digits).opt))
    <|> ("0" ++ (Pattern.anyOf "oO").opt ++ Pattern.opt "_" ++ underscored octalDigit)
    <|> ("0" ++ .anyOf "xX" ++ Pattern.opt "_" ++ hexDigits)

def sign : Pattern := .anyOf "+-"

def exponent : Pattern := .anyOf "eE" ++ sign.opt ++ digits

def decimalFloating : Pattern :=
  (digits ++ "." ++ digits.opt ++ exponent.opt) <|> (digits ++ exponent)
    <|> ("." ++ digits ++ exponent.opt)

def hexFloating : Pattern :=
  "0" ++ .anyOf "xX"
    ++ ((Pattern.opt "_" ++ hexDigits ++ "." ++ hexDigits.opt) <|> (Pattern.opt "_" ++ hexDigits)
      <|> ("." ++ hexDigits))
    ++ (.anyOf "pP" ++ sign.opt ++ digits)

def floating : Pattern := decimalFloating <|> hexFloating

/-- Characters with which a name may start. -/
def identifierStart : CharSet := .identifierStarts ++ .ofString "_"

/-! ## Parts of rules -/

/-- The end of a statement or declaration. -/
def terminator : Rule Word := choice [ref "_newline", ";", "\x00"]

def labelName : Rule Word := renamed "label_name" (ref "identifier")

/-- A label at the end of a block. -/
def emptyLabel : Rule Word := renamed "labeled_statement" (ref "empty_labeled_statement")

/-- The name of a function whose first argument is a type. -/
def builtin : Rule Word := renamed "identifier" (choice ["new", "make"])

/-- The result of a function, if any. -/
def result : Rule Word :=
  labelled "result" (opt (choice [ref "parameter_list", ref "_simple_type"]))

def statements : Rule Word := opt (ref "_statement_list")

/-- Two operands with one of some operators between. -/
def binary (n : Int) (operators : List (Rule Word)) : Rule Word :=
  left n (seq [part "left" "_expression", labelled "operator" (choice operators),
    part "right" "_expression"])

/-! ## Definitions -/

/-- The whole text and its declarations. -/
def declarations : List (String × Definition) := [
  token "_newline" { pattern := "\n" },
  rule "source_file" (seq [many (choice [seq [ref "_statement", terminator],
      seq [ref "_top_level_declaration", terminator]]), opt (ref "_top_level_declaration")]),
  rule "_top_level_declaration" (choice [ref "package_clause", ref "function_declaration",
    ref "method_declaration", ref "import_declaration"]),
  rule "package_clause" (seq ["package", ref "_package_identifier"]),
  rule "import_declaration" (seq ["import", choice [ref "import_spec", ref "import_spec_list"]]),
  rule "import_spec" (seq [opt (labelled "name" (choice [ref "dot", ref "blank_identifier",
      ref "_package_identifier"])), part "path" "_string_literal"]),
  rule "dot" ".",
  token "blank_identifier" (.text "_"),
  rule "import_spec_list" (seq ["(",
    opt (seq [ref "import_spec", many (seq [terminator, ref "import_spec"]), opt terminator]),
    ")"]),
  rule "_declaration" (choice [ref "const_declaration", ref "type_declaration",
    ref "var_declaration"]),
  rule "const_declaration" (seq ["const",
    choice [ref "const_spec", seq ["(", many (seq [ref "const_spec", terminator]), ")"]]]),
  rule "const_spec" (left 0 (seq [labelled "name" (list1 (ref "identifier")),
    opt (seq [opt (part "type" "_type"), "=", part "value" "expression_list"])])),
  rule "var_declaration" (seq ["var", choice [ref "var_spec", ref "var_spec_list"]]),
  rule "var_spec" (seq [list1 (part "name" "identifier"),
    choice [seq [part "type" "_type", opt (seq ["=", part "value" "expression_list"])],
      seq ["=", part "value" "expression_list"]]]),
  rule "var_spec_list" (seq ["(", many (seq [ref "var_spec", terminator]), ")"]),
  rule "function_declaration" (right 1 (seq ["func", part "name" "identifier",
    labelled "type_parameters" (opt (ref "type_parameter_list")),
    part "parameters" "parameter_list", result, labelled "body" (opt (ref "block"))])),
  rule "method_declaration" (right 1 (seq ["func", part "receiver" "parameter_list",
    part "name" "_field_identifier", part "parameters" "parameter_list", result,
    labelled "body" (opt (ref "block"))])),
  rule "type_parameter_list" (seq ["[", list1 (ref "type_parameter_declaration"), opt ",", "]"]),
  rule "type_parameter_declaration" (seq [list1 (part "name" "identifier"),
    labelled "type" (renamed "type_constraint" (ref "type_elem"))]),
  rule "parameter_list" (seq ["(",
    opt (seq [list (choice [ref "parameter_declaration", ref "variadic_parameter_declaration"]),
      opt ","]), ")"]),
  rule "parameter_declaration" (seq [list (part "name" "identifier"), part "type" "_type"]),
  rule "variadic_parameter_declaration" (seq [labelled "name" (opt (ref "identifier")), "...",
    part "type" "_type"]),
  rule "type_alias" (seq [part "name" "_type_identifier", "=", part "type" "_type"]),
  rule "type_declaration" (seq ["type",
    choice [ref "type_spec", ref "type_alias",
      seq ["(", many (seq [choice [ref "type_spec", ref "type_alias"], terminator]), ")"]]]),
  rule "type_spec" (seq [part "name" "_type_identifier",
    labelled "type_parameters" (opt (ref "type_parameter_list")), part "type" "_type"]),
  rule "expression_list" (list1 (ref "_expression"))]

def types : List (String × Definition) := [
  rule "parenthesized_type" (seq ["(", ref "_type", ")"]),
  rule "_type" (choice [ref "_simple_type", ref "parenthesized_type"]),
  rule "_simple_type" (choice [weighted (-1) (ref "_type_identifier"), ref "generic_type",
    ref "qualified_type", ref "pointer_type", ref "struct_type", ref "interface_type",
    ref "array_type", ref "slice_type", ref "map_type", ref "channel_type", ref "function_type",
    ref "negated_type"]),
  rule "generic_type" (weighted 1 (seq [labelled "type" (choice [ref "_type_identifier",
      ref "qualified_type", ref "negated_type"]), part "type_arguments" "type_arguments"])),
  rule "type_arguments" (weighted 2 (seq ["[", list1 (ref "type_elem"), opt ",", "]"])),
  rule "pointer_type" (rank Rank.unary (seq ["*", ref "_type"])),
  rule "array_type" (right 0 (seq ["[", part "length" "_expression", "]", part "element" "_type"])),
  rule "implicit_length_array_type" (seq ["[", "...", "]", part "element" "_type"]),
  rule "slice_type" (right 0 (seq ["[", "]", part "element" "_type"])),
  rule "struct_type" (seq ["struct", ref "field_declaration_list"]),
  rule "negated_type" (left 0 (seq ["~", ref "_type"])),
  rule "field_declaration_list" (seq ["\x7b",
    opt (seq [ref "field_declaration", many (seq [terminator, ref "field_declaration"]),
      opt terminator]), "\x7d"]),
  rule "field_declaration" (seq [choice [seq [list1 (part "name" "_field_identifier"),
        part "type" "_type"],
      seq [opt "*",
        labelled "type" (choice [ref "_type_identifier", ref "qualified_type",
          ref "generic_type"])]], labelled "tag" (opt (ref "_string_literal"))]),
  rule "interface_type" (seq ["interface", "\x7b",
    opt (seq [ref "_interface_elem", many (seq [terminator, ref "_interface_elem"]),
      opt terminator]), "\x7d"]),
  rule "_interface_elem" (choice [ref "method_elem", ref "type_elem"]),
  rule "method_elem" (seq [part "name" "_field_identifier", part "parameters" "parameter_list",
    result]),
  rule "type_elem" (separated (ref "_type") "|"),
  rule "map_type" (right 0 (seq ["map", "[", part "key" "_type", "]", part "value" "_type"])),
  rule "channel_type" (left 0 (choice [seq ["chan", part "value" "_type"],
    seq ["chan", "<-", part "value" "_type"],
    rank Rank.unary (seq ["<-", "chan", part "value" "_type"])])),
  rule "function_type" (right 0 (seq ["func", part "parameters" "parameter_list", result]))]

def statementRules : List (String × Definition) := [
  rule "block" (seq ["\x7b", statements, "\x7d"]),
  rule "_statement_list" (choice [seq [ref "_statement", many (seq [terminator, ref "_statement"]),
      opt (seq [terminator, opt emptyLabel])], emptyLabel]),
  rule "_statement" (choice [ref "_declaration", ref "_simple_statement", ref "return_statement",
    ref "go_statement", ref "defer_statement", ref "if_statement", ref "for_statement",
    ref "expression_switch_statement", ref "type_switch_statement", ref "select_statement",
    ref "labeled_statement", ref "fallthrough_statement", ref "break_statement",
    ref "continue_statement", ref "goto_statement", ref "block", ref "empty_statement"]),
  rule "empty_statement" ";",
  rule "_simple_statement" (choice [ref "expression_statement", ref "send_statement",
    ref "inc_statement", ref "dec_statement", ref "assignment_statement",
    ref "short_var_declaration"]),
  rule "expression_statement" (ref "_expression"),
  rule "send_statement" (seq [part "channel" "_expression", "<-", part "value" "_expression"]),
  rule "receive_statement" (seq [opt (seq [part "left" "expression_list", choice ["=", ":="]]),
    part "right" "_expression"]),
  rule "inc_statement" (seq [ref "_expression", "++"]),
  rule "dec_statement" (seq [ref "_expression", "--"]),
  rule "assignment_statement" (seq [part "left" "expression_list",
    labelled "operator" (choice ["*=", "/=", "%=", "<<=", ">>=", "&=", "&^=", "+=", "-=", "|=",
      "^=", "="]), part "right" "expression_list"]),
  rule "short_var_declaration" (seq [part "left" "expression_list", ":=",
    part "right" "expression_list"]),
  rule "labeled_statement" (seq [labelled "label" (renamed "label_name" (ref "identifier")), ":",
    ref "_statement"]),
  rule "empty_labeled_statement" (seq [labelled "label" (renamed "label_name" (ref "identifier")),
    ":"]),
  rule "fallthrough_statement" (left 0 "fallthrough"),
  rule "break_statement" (seq ["break", opt labelName]),
  rule "continue_statement" (seq ["continue", opt labelName]),
  rule "goto_statement" (seq ["goto", labelName]),
  rule "return_statement" (seq ["return", opt (ref "expression_list")]),
  rule "go_statement" (seq ["go", ref "_expression"]),
  rule "defer_statement" (seq ["defer", ref "_expression"]),
  rule "if_statement" (seq ["if", opt (seq [part "initializer" "_simple_statement", ";"]),
    part "condition" "_expression", part "consequence" "block",
    opt (seq ["else", labelled "alternative" (choice [ref "block", ref "if_statement"])])]),
  rule "for_statement" (seq ["for",
    opt (choice [ref "_expression", ref "for_clause", ref "range_clause"]), part "body" "block"]),
  rule "for_clause" (seq [labelled "initializer" (opt (ref "_simple_statement")), ";",
    labelled "condition" (opt (ref "_expression")), ";",
    labelled "update" (opt (ref "_simple_statement"))]),
  rule "range_clause" (seq [opt (seq [part "left" "expression_list", choice ["=", ":="]]), "range",
    part "right" "_expression"]),
  rule "expression_switch_statement" (seq ["switch",
    opt (seq [part "initializer" "_simple_statement", ";"]),
    labelled "value" (opt (ref "_expression")), "\x7b",
    many (choice [ref "expression_case", ref "default_case"]), "\x7d"]),
  rule "expression_case" (seq ["case", part "value" "expression_list", ":", statements]),
  rule "default_case" (seq ["default", ":", statements]),
  rule "type_switch_statement" (seq ["switch", ref "_type_switch_header", "\x7b",
    many (choice [ref "type_case", ref "default_case"]), "\x7d"]),
  rule "_type_switch_header" (seq [opt (seq [part "initializer" "_simple_statement", ";"]),
    opt (seq [part "alias" "expression_list", ":="]), part "value" "_expression", ".", "(", "type",
    ")"]),
  rule "type_case" (seq ["case", labelled "type" (list1 (ref "_type")), ":", statements]),
  rule "select_statement" (seq ["select", "\x7b",
    many (choice [ref "communication_case", ref "default_case"]), "\x7d"]),
  rule "communication_case" (seq ["case",
    labelled "communication" (choice [ref "send_statement", ref "receive_statement"]), ":",
    statements])]

def expressions : List (String × Definition) := [
  rule "_expression" (choice [ref "unary_expression", ref "binary_expression",
    ref "selector_expression", ref "index_expression", ref "slice_expression",
    ref "call_expression", ref "type_assertion_expression", ref "type_conversion_expression",
    ref "type_instantiation_expression", ref "identifier", builtin, ref "composite_literal",
    ref "func_literal", ref "_string_literal", ref "int_literal", ref "float_literal",
    ref "imaginary_literal", ref "rune_literal", ref "nil", ref "true", ref "false", ref "iota",
    ref "parenthesized_expression"]),
  rule "parenthesized_expression" (seq ["(", ref "_expression", ")"]),
  rule "call_expression" (rank Rank.primary (choice [
    seq [labelled "function" builtin,
      labelled "arguments" (renamed "argument_list" (ref "special_argument_list"))],
    seq [part "function" "_expression", labelled "type_arguments" (opt (ref "type_arguments")),
      part "arguments" "argument_list"]])),
  rule "variadic_argument" (right 0 (seq [ref "_expression", "..."])),
  rule "special_argument_list" (seq ["(",
    opt (seq [ref "_type", many (seq [",", ref "_expression"]), opt ","]), ")"]),
  rule "argument_list" (seq ["(",
    opt (seq [choice [ref "_expression", ref "variadic_argument"],
      many (seq [",", choice [ref "_expression", ref "variadic_argument"]]), opt ","]), ")"]),
  rule "selector_expression" (rank Rank.primary (seq [part "operand" "_expression", ".",
    part "field" "_field_identifier"])),
  rule "index_expression" (rank Rank.primary (seq [part "operand" "_expression", "[",
    part "index" "_expression", "]"])),
  rule "slice_expression" (rank Rank.primary (seq [part "operand" "_expression", "[",
    choice [seq [labelled "start" (opt (ref "_expression")), ":",
        labelled "end" (opt (ref "_expression"))],
      seq [labelled "start" (opt (ref "_expression")), ":", part "end" "_expression", ":",
        part "capacity" "_expression"]], "]"])),
  rule "type_assertion_expression" (rank Rank.primary (seq [part "operand" "_expression", ".", "(",
    part "type" "_type", ")"])),
  rule "type_conversion_expression" (weighted (-1) (seq [part "type" "_type", "(",
    part "operand" "_expression", opt ",", ")"])),
  rule "type_instantiation_expression" (weighted (-1) (seq [part "type" "_type", "[",
    list1 (ref "_type"), opt ",", "]"])),
  rule "composite_literal" (rank Rank.composite (seq [labelled "type" (choice [ref "map_type",
      ref "slice_type", ref "array_type", ref "implicit_length_array_type", ref "struct_type",
      ref "_type_identifier", ref "generic_type", ref "qualified_type"]),
    part "body" "literal_value"])),
  rule "literal_value" (seq ["\x7b",
    opt (seq [list (choice [ref "literal_element", ref "keyed_element"]), opt ","]), "\x7d"]),
  rule "literal_element" (choice [ref "_expression", ref "literal_value"]),
  rule "keyed_element" (seq [ref "literal_element", ":", ref "literal_element"]),
  rule "func_literal" (seq ["func", part "parameters" "parameter_list", result,
    part "body" "block"]),
  rule "unary_expression" (rank Rank.unary (seq [labelled "operator" (choice ["+", "-", "!", "^",
      "*", "&", "<-"]), part "operand" "_expression"])),
  rule "binary_expression" (choice [binary Rank.product ["*", "/", "%", "<<", ">>", "&", "&^"],
    binary Rank.sum ["+", "-", "|", "^"], binary Rank.comparison ["==", "!=", "<", "<=", ">", ">="],
    binary Rank.and ["&&"], binary Rank.or ["||"]]),
  rule "qualified_type" (seq [part "package" "_package_identifier", ".",
    part "name" "_type_identifier"])]

/-- Words, literals and comments. -/
def words : List (String × Definition) := [
  token "identifier" { pattern := .one identifierStart ++ (Pattern.one .identifierParts).many },
  rule "_type_identifier" (renamed "type_identifier" (ref "identifier")),
  rule "_field_identifier" (renamed "field_identifier" (ref "identifier")),
  rule "_package_identifier" (renamed "package_identifier" (ref "identifier")),
  rule "_string_literal" (choice [ref "raw_string_literal", ref "interpreted_string_literal"]),
  rule "raw_string_literal" (seq ["`", renamed "raw_string_literal_content" (ref "_raw_text"),
    "`"]),
  token "_raw_text" { pattern := (Pattern.noneOf "`").many, rank := 1 },
  rule "interpreted_string_literal" (seq ["\"",
    many (choice [renamed "interpreted_string_literal_content" (ref "_text"),
      ref "escape_sequence"]), ref "_text_end"]),
  token "_text" { pattern := (Pattern.noneOf "\"\n\\").many1, glued := true, rank := 1 },
  token "_text_end" { Token.text "\"" with glued := true },
  token "escape_sequence"
    { pattern := "\\" ++ (Pattern.noneOf "xuU"
        <|> (Pattern.times 2 (.one .digits) ++ Pattern.opt (.one .digits))
        <|> ("x" ++ Pattern.times 2 hexDigit ++ hexDigit.many)
        <|> ("u" ++ Pattern.times 4 hexDigit)
        <|> ("U" ++ Pattern.times 8 hexDigit))
      glued := true },
  token "int_literal" { pattern := integer },
  token "float_literal" { pattern := floating },
  token "imaginary_literal" { pattern := (digits <|> integer <|> floating) ++ "i" },
  token "rune_literal"
    { pattern := "'" ++ (Pattern.noneOf "'\\" <|> ("\\" ++ (("x" ++ Pattern.times 2 hexDigit)
        <|> Pattern.times 3 octalDigit
        <|> ("u" ++ Pattern.times 4 hexDigit)
        <|> ("U" ++ Pattern.times 8 hexDigit)
        <|> Pattern.anyOf "abfnrtv\\'\""))) ++ "'" },
  token "nil" (.text "nil"),
  token "true" (.text "true"),
  token "false" (.text "false"),
  token "iota" (.text "iota"),
  token "comment" { pattern := ("//" ++ (Pattern.noneOf "\n").many) <|> .blockComment }]

def grammar : Grammar where
  definitions := declarations ++ types ++ statementRules ++ expressions ++ words
  word := "identifier"
  comments := ["comment"]
  families := ["_expression", "_type", "_simple_type", "_statement", "_simple_statement"]
  inlined := ["_type", "_type_identifier", "_field_identifier", "_package_identifier",
    "_top_level_declaration", "_string_literal", "_interface_elem"]

end CodeAtlas.Syntax.Go
