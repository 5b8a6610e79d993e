import CodeAtlas.Syntax.Rule

/-!
# The grammar of Java

Tokens and rules of Java source files, in the order in which tokens are numbered. The names of
rules are the kinds of nodes, and labels are the roles of their children.
-/

namespace CodeAtlas.Syntax.Java

open Rule

/-! ## Ranks -/

namespace Rank

def assignment : Int := 1
def declaration : Int := 2

/-- Rank of values in annotations. -/
def element : Int := 2

def ternary : Int := 3
def or : Int := 4
def and : Int := 5
def bitOr : Int := 6
def bitXor : Int := 7
def bitAnd : Int := 8
def equality : Int := 9
def comparison : Int := 10

/-- Weight of types with arguments. -/
def generic : Int := 10

def shift : Int := 11
def sum : Int := 12
def product : Int := 13
def cast : Int := 14
def unary : Int := 15

/-- Weight of class literals. -/
def classLiteral : Int := 17

end Rank

/-! ## Parts of tokens -/

def octalDigit : Pattern := .one (.range '0' '7')

def hexDigit : Pattern := .one .hexDigits

/-- Runs of digits with an underscore between. -/
def underscored (digit : Pattern) : Pattern := .separated digit.many1 "_"

def digits : Pattern := underscored (.one .digits)

def hexDigits : Pattern := underscored hexDigit

/-- A whole number without leading zeros. -/
def integer : Pattern :=
  ("0" : Pattern) <|> (.one (.range '1' '9')
    ++ (Pattern.opt "_" ++ .separated (Pattern.one .digits).many1 (Pattern.many1 "_")).opt)

/-- The start of a hexadecimal number. -/
def hexMark : Pattern := "0" ++ .anyOf "xX"

/-- The end of a long number. -/
def longMark : Pattern := (Pattern.anyOf "lL").opt

/-- The end of a floating-point number. -/
def floatMark : Pattern := .anyOf "fFdD"

def sign : Pattern := .anyOf "-+"

def exponent : Pattern := .anyOf "eE" ++ sign.opt ++ digits

/-- Characters with which a name may start. -/
def identifierStart : CharSet := .identifierStarts ++ .ofString "_$"

/-- Characters with which a name may go on. -/
def identifierPart : CharSet := .identifierParts ++ .ofString "¢_$"

/-! ## Parts of rules -/

/-- A name, which may be a word that is only sometimes reserved. -/
def plainName : Rule Word := choice [ref "identifier", ref "_reserved_identifier"]

def annotations : Rule Word := many (ref "_annotation")

def typeIdentifier : Rule Word := renamed "type_identifier" (ref "identifier")

def modifiers : Rule Word := opt (ref "modifiers")

/-- The type of what is declared. -/
def plainType : Rule Word := part "type" "_unannotated_type"

/-- Two operands with an operator between. -/
def binary (n : Int) (operator : String) : Rule Word :=
  left n (seq [part "left" "expression", labelled "operator" operator, part "right" "expression"])

/-- An operand with an operator in front. -/
def unary (operator : String) : Rule Word :=
  left Rank.unary (seq [labelled "operator" operator, part "operand" "expression"])

/-! ## Definitions -/

/-- The whole text and the literals. -/
def literals : List (String × Definition) := [
  rule "program" (many (ref "_toplevel_statement")),
  rule "_toplevel_statement" (choice [ref "statement", ref "method_declaration"]),
  rule "_literal" (choice [ref "decimal_integer_literal", ref "hex_integer_literal",
    ref "octal_integer_literal", ref "binary_integer_literal", ref "decimal_floating_point_literal",
    ref "hex_floating_point_literal", ref "true", ref "false", ref "character_literal",
    ref "string_literal", ref "null_literal"]),
  token "decimal_integer_literal" { pattern := integer ++ longMark },
  token "hex_integer_literal" { pattern := hexMark ++ hexDigits ++ longMark },
  token "octal_integer_literal"
    { pattern := ("0" ++ (Pattern.anyOf "oO").opt) ++ underscored octalDigit ++ longMark },
  token "binary_integer_literal"
    { pattern := "0" ++ Pattern.anyOf "bB" ++ underscored (.anyOf "01") ++ longMark },
  token "decimal_floating_point_literal"
    { pattern := (digits ++ "." ++ digits.opt ++ exponent.opt ++ floatMark.opt)
        <|> ("." ++ digits ++ exponent.opt ++ floatMark.opt)
        <|> (integer ++ exponent ++ floatMark.opt)
        <|> (integer ++ exponent.opt ++ floatMark) },
  token "hex_floating_point_literal"
    { pattern := hexMark
        ++ ((hexDigits ++ Pattern.opt ".") <|> (hexDigits.opt ++ "." ++ hexDigits))
        ++ (Pattern.anyOf "pP" ++ sign.opt ++ integer ++ floatMark.opt).opt },
  token "true" (.text "true"),
  token "false" (.text "false"),
  token "character_literal"
    { pattern := "'" ++ (Pattern.noneOf "\\'\n" <|> ("\\" ++ Pattern.noneOf "\n")
        <|> ("\\\n" : Pattern)).many1 ++ "'" },
  rule "string_literal" (choice [ref "_string_literal", ref "_multiline_string_literal"]),
  rule "_string_literal" (seq ["\"",
    many (choice [ref "string_fragment", ref "escape_sequence", ref "string_interpolation"]),
    "\""]),
  rule "_multiline_string_literal" (seq ["\"\"\"",
    many (choice [renamed "multiline_string_fragment" (ref "_multiline_string_fragment"),
      ref "_escape_sequence", ref "string_interpolation"]), "\"\"\""]),
  token "string_fragment" { pattern := (Pattern.noneOf "\"\\").many1, glued := true, rank := 1 },
  rule "_multiline_string_fragment" (choice [ref "_block_text", ref "_block_quote"]),
  token "_block_text" { pattern := (Pattern.noneOf "\"\\").many1 },
  token "_block_quote" { pattern := "\"" ++ (Pattern.noneOf "\"\\" <|> ("\\\"" : Pattern)).many },
  rule "string_interpolation" (seq ["\\\x7b", ref "expression", "\x7d"]),
  rule "_escape_sequence" (choice [rank 2 (ref "_unknown_escape"),
    rank 1 (ref "escape_sequence")]),
  token "_unknown_escape" { pattern := "\\" ++ Pattern.noneOf "bfnrts'\"\\", glued := true },
  token "escape_sequence"
    { pattern := "\\" ++ (Pattern.noneOf "xu01234567"
        <|> (octalDigit ++ Pattern.upTo 2 octalDigit)
        <|> ("x" ++ Pattern.times 2 hexDigit)
        <|> ("u" ++ Pattern.times 4 hexDigit)
        <|> ("u\x7b" ++ hexDigit.many1 ++ "\x7d"))
      glued := true },
  token "null_literal" (.text "null")]

def expressions : List (String × Definition) := [
  rule "expression" (choice [ref "assignment_expression", ref "binary_expression",
    ref "instanceof_expression", ref "lambda_expression", ref "ternary_expression",
    ref "update_expression", ref "primary_expression", ref "unary_expression",
    ref "cast_expression", ref "switch_expression"]),
  rule "cast_expression" (rank Rank.cast (choice [seq ["(", part "type" "_type", ")",
      part "value" "expression"],
    seq ["(", separated (part "type" "_type") "&", ")",
      labelled "value" (choice [ref "primary_expression", ref "lambda_expression"])]])),
  rule "assignment_expression" (right Rank.assignment (seq [
    labelled "left" (choice [ref "identifier", ref "_reserved_identifier", ref "field_access",
      ref "array_access"]),
    labelled "operator" (choice ["=", "+=", "-=", "*=", "/=", "&=", "|=", "^=", "%=", "<<=", ">>=",
      ">>>="]), part "right" "expression"])),
  rule "binary_expression" (choice [binary Rank.comparison ">", binary Rank.comparison "<",
    binary Rank.comparison ">=", binary Rank.comparison "<=", binary Rank.equality "==",
    binary Rank.equality "!=", binary Rank.and "&&", binary Rank.or "||", binary Rank.sum "+",
    binary Rank.sum "-", binary Rank.product "*", binary Rank.product "/", binary Rank.bitAnd "&",
    binary Rank.bitOr "|", binary Rank.bitXor "^", binary Rank.product "%", binary Rank.shift "<<",
    binary Rank.shift ">>", binary Rank.shift ">>>"]),
  rule "instanceof_expression" (rank Rank.comparison (seq [part "left" "expression", "instanceof",
    opt "final",
    choice [seq [part "right" "_type", labelled "name" (opt plainName)],
      part "pattern" "record_pattern"]])),
  rule "lambda_expression" (seq [labelled "parameters" (choice [ref "identifier",
      ref "formal_parameters", ref "inferred_parameters", ref "_reserved_identifier"]), "->",
    labelled "body" (choice [ref "expression", ref "block"])]),
  rule "inferred_parameters" (seq ["(", list1 plainName, ")"]),
  rule "ternary_expression" (right Rank.ternary (seq [part "condition" "expression", "?",
    part "consequence" "expression", ":", part "alternative" "expression"])),
  rule "unary_expression" (choice [unary "+", unary "-", unary "!", unary "~"]),
  rule "update_expression" (left Rank.unary (choice [seq [ref "expression", "++"],
    seq [ref "expression", "--"], seq ["++", ref "expression"], seq ["--", ref "expression"]])),
  rule "primary_expression" (choice [ref "_literal", ref "class_literal", ref "this",
    ref "identifier", ref "_reserved_identifier", ref "parenthesized_expression",
    ref "object_creation_expression", ref "field_access", ref "array_access",
    ref "method_invocation", ref "method_reference", ref "array_creation_expression",
    ref "template_expression"]),
  rule "array_creation_expression" (right 0 (seq ["new", annotations, part "type" "_simple_type",
    choice [seq [labelled "dimensions" (many1 (ref "dimensions_expr")),
        labelled "dimensions" (opt (ref "dimensions"))],
      seq [part "dimensions" "dimensions", part "value" "array_initializer"]]])),
  rule "dimensions_expr" (seq [annotations, "[", ref "expression", "]"]),
  rule "parenthesized_expression" (seq ["(", ref "expression", ")"]),
  rule "class_literal" (weighted Rank.classLiteral (seq [ref "_unannotated_type", ".", "class"])),
  rule "object_creation_expression" (choice [ref "_unqualified_object_creation_expression",
    seq [ref "primary_expression", ".", ref "_unqualified_object_creation_expression"]]),
  rule "_unqualified_object_creation_expression" (right 0 (seq ["new",
    opt (choice [seq [annotations, part "type_arguments" "type_arguments", annotations],
      many1 (ref "_annotation")]), part "type" "_simple_type", part "arguments" "argument_list",
    opt (ref "class_body")])),
  rule "field_access" (seq [labelled "object" (choice [ref "primary_expression", ref "super"]),
    opt (seq [".", ref "super"]), ".",
    labelled "field" (choice [ref "identifier", ref "_reserved_identifier", ref "this"])]),
  rule "template_expression" (seq [part "template_processor" "primary_expression", ".",
    part "template_argument" "string_literal"]),
  rule "array_access" (seq [part "array" "primary_expression", "[", part "index" "expression",
    "]"]),
  rule "method_invocation" (seq [choice [labelled "name" plainName,
      seq [labelled "object" (choice [ref "primary_expression", ref "super"]), ".",
        opt (seq [ref "super", "."]), labelled "type_arguments" (opt (ref "type_arguments")),
        labelled "name" plainName]], part "arguments" "argument_list"]),
  rule "argument_list" (seq ["(", list (ref "expression"), ")"]),
  rule "method_reference" (seq [choice [ref "_type", ref "primary_expression", ref "super"], "::",
    opt (ref "type_arguments"), choice ["new", ref "identifier"]]),
  rule "type_arguments" (seq ["<", list (choice [ref "_type", ref "wildcard"]), ">"]),
  rule "wildcard" (seq [annotations, "?", opt (ref "_wildcard_bounds")]),
  rule "_wildcard_bounds" (choice [seq ["extends", ref "_type"], seq [ref "super", ref "_type"]]),
  rule "dimensions" (right 0 (many1 (seq [annotations, "[", "]"]))),
  rule "switch_expression" (seq ["switch", part "condition" "parenthesized_expression",
    part "body" "switch_block"]),
  rule "switch_block" (seq ["\x7b",
    choice [many1 (ref "switch_block_statement_group"), blank, many1 (ref "switch_rule")], "\x7d"]),
  rule "switch_block_statement_group" (left 0 (seq [many1 (seq [ref "switch_label", ":"]),
    many (ref "statement")])),
  rule "switch_rule" (seq [ref "switch_label", "->",
    choice [ref "expression_statement", ref "throw_statement", ref "block"]]),
  rule "switch_label" (choice [seq ["case", choice [ref "pattern", list1 (ref "expression")],
      opt (ref "guard")], "default"]),
  rule "pattern" (choice [ref "type_pattern", ref "record_pattern"]),
  rule "type_pattern" (seq [ref "_unannotated_type", plainName]),
  rule "record_pattern" (seq [choice [ref "identifier", ref "_reserved_identifier",
      ref "generic_type"], ref "record_pattern_body"]),
  rule "record_pattern_body" (seq ["(",
    list (choice [ref "record_pattern_component", ref "record_pattern"]), ")"]),
  rule "record_pattern_component" (choice [ref "underscore_pattern",
    seq [ref "_unannotated_type", plainName]]),
  token "underscore_pattern" (.text "_"),
  rule "guard" (seq ["when", ref "expression"])]

def statements : List (String × Definition) := [
  rule "statement" (choice [ref "declaration", ref "expression_statement", ref "labeled_statement",
    ref "if_statement", ref "while_statement", ref "for_statement", ref "enhanced_for_statement",
    ref "block", ";", ref "assert_statement", ref "do_statement", ref "break_statement",
    ref "continue_statement", ref "return_statement", ref "yield_statement",
    ref "switch_expression", ref "synchronized_statement", ref "local_variable_declaration",
    ref "throw_statement", ref "try_statement", ref "try_with_resources_statement"]),
  rule "block" (seq ["\x7b", many (ref "statement"), "\x7d"]),
  rule "expression_statement" (seq [ref "expression", ";"]),
  rule "labeled_statement" (seq [ref "identifier", ":", ref "statement"]),
  rule "assert_statement" (choice [seq ["assert", ref "expression", ";"],
    seq ["assert", ref "expression", ":", ref "expression", ";"]]),
  rule "do_statement" (seq ["do", part "body" "statement", "while",
    part "condition" "parenthesized_expression", ";"]),
  rule "break_statement" (seq ["break", opt (ref "identifier"), ";"]),
  rule "continue_statement" (seq ["continue", opt (ref "identifier"), ";"]),
  rule "return_statement" (seq ["return", opt (ref "expression"), ";"]),
  rule "yield_statement" (seq ["yield", ref "expression", ";"]),
  rule "synchronized_statement" (seq ["synchronized", ref "parenthesized_expression",
    part "body" "block"]),
  rule "throw_statement" (seq ["throw", ref "expression", ";"]),
  rule "try_statement" (seq ["try", part "body" "block",
    choice [many1 (ref "catch_clause"), seq [many (ref "catch_clause"), ref "finally_clause"]]]),
  rule "catch_clause" (seq ["catch", "(", ref "catch_formal_parameter", ")", part "body" "block"]),
  rule "catch_formal_parameter" (seq [modifiers, ref "catch_type", ref "_variable_declarator_id"]),
  rule "catch_type" (separated (ref "_unannotated_type") "|"),
  rule "finally_clause" (seq ["finally", ref "block"]),
  rule "try_with_resources_statement" (seq ["try", part "resources" "resource_specification",
    part "body" "block", many (ref "catch_clause"), opt (ref "finally_clause")]),
  rule "resource_specification" (seq ["(", separated (ref "resource") ";", opt ";", ")"]),
  rule "resource" (choice [seq [modifiers, plainType, ref "_variable_declarator_id", "=",
      part "value" "expression"], ref "identifier", ref "field_access"]),
  rule "if_statement" (right 0 (seq ["if", part "condition" "parenthesized_expression",
    part "consequence" "statement", opt (seq ["else", part "alternative" "statement"])])),
  rule "while_statement" (seq ["while", part "condition" "parenthesized_expression",
    part "body" "statement"]),
  rule "for_statement" (seq ["for", "(",
    choice [part "init" "local_variable_declaration", seq [list (part "init" "expression"), ";"]],
    labelled "condition" (opt (ref "expression")), ";", list (part "update" "expression"), ")",
    part "body" "statement"]),
  rule "enhanced_for_statement" (seq ["for", "(", modifiers, plainType,
    ref "_variable_declarator_id", ":", part "value" "expression", ")", part "body" "statement"])]

/-- Annotations and their arguments. -/
def annotationRules : List (String × Definition) := [
  rule "_annotation" (choice [ref "marker_annotation", ref "annotation"]),
  rule "marker_annotation" (seq ["@", part "name" "_name"]),
  rule "annotation" (seq ["@", part "name" "_name", part "arguments" "annotation_argument_list"]),
  rule "annotation_argument_list" (seq ["(",
    opt (choice [ref "_element_value", list1 (ref "element_value_pair")]), ")"]),
  rule "element_value_pair" (seq [labelled "key" plainName, "=", part "value" "_element_value"]),
  rule "_element_value" (rank Rank.element (choice [ref "expression",
    ref "element_value_array_initializer", ref "_annotation"])),
  rule "element_value_array_initializer" (seq ["\x7b", list (ref "_element_value"), opt ",",
    "\x7d"])]

/-- Modules, packages and imports. -/
def modules : List (String × Definition) := [
  rule "declaration" (rank Rank.declaration (choice [ref "module_declaration",
    ref "package_declaration", ref "import_declaration", ref "class_declaration",
    ref "record_declaration", ref "interface_declaration", ref "annotation_type_declaration",
    ref "enum_declaration"])),
  rule "module_declaration" (seq [annotations, opt "open", "module", part "name" "_name",
    part "body" "module_body"]),
  rule "module_body" (seq ["\x7b", many (ref "module_directive"), "\x7d"]),
  rule "module_directive" (choice [ref "requires_module_directive", ref "exports_module_directive",
    ref "opens_module_directive", ref "uses_module_directive", ref "provides_module_directive"]),
  rule "requires_module_directive" (seq ["requires", many (part "modifiers" "requires_modifier"),
    part "module" "_name", ";"]),
  rule "requires_modifier" (choice ["transitive", "static"]),
  rule "exports_module_directive" (seq ["exports", part "package" "_name",
    opt (seq ["to", part "modules" "_name", many (seq [",", part "modules" "_name"])]), ";"]),
  rule "opens_module_directive" (seq ["opens", part "package" "_name",
    opt (seq ["to", part "modules" "_name", many (seq [",", part "modules" "_name"])]), ";"]),
  rule "uses_module_directive" (seq ["uses", part "type" "_name", ";"]),
  rule "provides_module_directive" (seq ["provides", part "provided" "_name", "with", ref "_name",
    many (seq [",", part "provider" "_name"]), ";"]),
  rule "package_declaration" (seq [annotations, "package", ref "_name", ";"]),
  rule "import_declaration" (seq ["import", opt "static", ref "_name",
    opt (seq [".", ref "asterisk"]), ";"]),
  rule "asterisk" "*"]

/-- Declarations of types and their members. -/
def declarations : List (String × Definition) := [
  rule "enum_declaration" (seq [modifiers, "enum", part "name" "identifier",
    labelled "interfaces" (opt (ref "super_interfaces")), part "body" "enum_body"]),
  rule "enum_body" (seq ["\x7b", list (ref "enum_constant"), opt ",",
    opt (ref "enum_body_declarations"), "\x7d"]),
  rule "enum_body_declarations" (seq [";", many (ref "_class_body_declaration")]),
  rule "enum_constant" (seq [modifiers, part "name" "identifier",
    labelled "arguments" (opt (ref "argument_list")), labelled "body" (opt (ref "class_body"))]),
  rule "class_declaration" (seq [modifiers, "class", part "name" "identifier",
    opt (part "type_parameters" "type_parameters"), opt (part "superclass" "superclass"),
    opt (part "interfaces" "super_interfaces"), opt (part "permits" "permits"),
    part "body" "class_body"]),
  rule "modifiers" (many1 (choice [ref "_annotation", "public", "protected", "private", "abstract",
    "static", "final", "strictfp", "default", "synchronized", "native", "transient", "volatile",
    "sealed", "non-sealed"])),
  rule "type_parameters" (seq ["<", list1 (ref "type_parameter"), ">"]),
  rule "type_parameter" (seq [annotations, typeIdentifier, opt (ref "type_bound")]),
  rule "type_bound" (seq ["extends", ref "_type", many (seq ["&", ref "_type"])]),
  rule "superclass" (seq ["extends", ref "_type"]),
  rule "super_interfaces" (seq ["implements", ref "type_list"]),
  rule "type_list" (list1 (ref "_type")),
  rule "permits" (seq ["permits", ref "type_list"]),
  rule "class_body" (seq ["\x7b", many (ref "_class_body_declaration"), "\x7d"]),
  rule "_class_body_declaration" (choice [ref "field_declaration", ref "record_declaration",
    ref "method_declaration", ref "compact_constructor_declaration", ref "class_declaration",
    ref "interface_declaration", ref "annotation_type_declaration", ref "enum_declaration",
    ref "block", ref "static_initializer", ref "constructor_declaration", ";"]),
  rule "static_initializer" (seq ["static", ref "block"]),
  rule "constructor_declaration" (seq [modifiers, ref "_constructor_declarator", opt (ref "throws"),
    part "body" "constructor_body"]),
  rule "_constructor_declarator" (seq [labelled "type_parameters" (opt (ref "type_parameters")),
    part "name" "identifier", part "parameters" "formal_parameters"]),
  rule "constructor_body" (seq ["\x7b", opt (ref "explicit_constructor_invocation"),
    many (ref "statement"), "\x7d"]),
  rule "explicit_constructor_invocation" (seq [
    choice [seq [labelled "type_arguments" (opt (ref "type_arguments")),
        labelled "constructor" (choice [ref "this", ref "super"])],
      seq [labelled "object" (choice [ref "primary_expression"]), ".",
        labelled "type_arguments" (opt (ref "type_arguments")), part "constructor" "super"]],
    part "arguments" "argument_list", ";"]),
  rule "_name" (choice [ref "identifier", ref "_reserved_identifier", ref "scoped_identifier"]),
  rule "scoped_identifier" (seq [part "scope" "_name", ".", part "name" "identifier"]),
  rule "field_declaration" (seq [modifiers, plainType, ref "_variable_declarator_list", ";"]),
  rule "record_declaration" (seq [modifiers, "record", part "name" "identifier",
    opt (part "type_parameters" "type_parameters"), part "parameters" "formal_parameters",
    opt (part "interfaces" "super_interfaces"), part "body" "class_body"]),
  rule "annotation_type_declaration" (seq [modifiers, "@interface", part "name" "identifier",
    part "body" "annotation_type_body"]),
  rule "annotation_type_body" (seq ["\x7b",
    many (choice [ref "annotation_type_element_declaration", ref "constant_declaration",
      ref "class_declaration", ref "interface_declaration", ref "enum_declaration",
      ref "annotation_type_declaration", ";"]), "\x7d"]),
  rule "annotation_type_element_declaration" (seq [modifiers, plainType, labelled "name" plainName,
    "(", ")", labelled "dimensions" (opt (ref "dimensions")), opt (ref "_default_value"), ";"]),
  rule "_default_value" (seq ["default", part "value" "_element_value"]),
  rule "interface_declaration" (seq [modifiers, "interface", part "name" "identifier",
    labelled "type_parameters" (opt (ref "type_parameters")), opt (ref "extends_interfaces"),
    opt (part "permits" "permits"), part "body" "interface_body"]),
  rule "extends_interfaces" (seq ["extends", ref "type_list"]),
  rule "interface_body" (seq ["\x7b",
    many (choice [ref "constant_declaration", ref "enum_declaration", ref "method_declaration",
      ref "class_declaration", ref "interface_declaration", ref "record_declaration",
      ref "annotation_type_declaration", ";"]), "\x7d"]),
  rule "constant_declaration" (seq [modifiers, plainType, ref "_variable_declarator_list", ";"]),
  rule "_variable_declarator_list" (list1 (part "declarator" "variable_declarator")),
  rule "variable_declarator" (seq [ref "_variable_declarator_id",
    opt (seq ["=", part "value" "_variable_initializer"])]),
  rule "_variable_declarator_id" (seq [labelled "name" (choice [ref "identifier",
      ref "_reserved_identifier", ref "underscore_pattern"]),
    labelled "dimensions" (opt (ref "dimensions"))]),
  rule "_variable_initializer" (choice [ref "expression", ref "array_initializer"]),
  rule "array_initializer" (seq ["\x7b", list (ref "_variable_initializer"), opt ",", "\x7d"])]

def types : List (String × Definition) := [
  rule "_type" (choice [ref "_unannotated_type", ref "annotated_type"]),
  rule "_unannotated_type" (choice [ref "_simple_type", ref "array_type"]),
  rule "_simple_type" (choice [ref "void_type", ref "integral_type", ref "floating_point_type",
    ref "boolean_type", typeIdentifier, ref "scoped_type_identifier", ref "generic_type"]),
  rule "annotated_type" (seq [many1 (ref "_annotation"), ref "_unannotated_type"]),
  rule "scoped_type_identifier" (seq [choice [typeIdentifier, ref "scoped_type_identifier",
      ref "generic_type"], ".", annotations, typeIdentifier]),
  rule "generic_type" (weighted Rank.generic (seq [choice [typeIdentifier,
      ref "scoped_type_identifier"], ref "type_arguments"])),
  rule "array_type" (seq [part "element" "_unannotated_type", part "dimensions" "dimensions"]),
  rule "integral_type" (choice ["byte", "short", "int", "long", "char"]),
  rule "floating_point_type" (choice ["float", "double"]),
  token "boolean_type" (.text "boolean"),
  token "void_type" (.text "void")]

/-- Methods, parameters and local variables. -/
def methods : List (String × Definition) := [
  rule "_method_header" (seq [opt (seq [part "type_parameters" "type_parameters", annotations]),
    plainType, ref "_method_declarator", opt (ref "throws")]),
  rule "_method_declarator" (seq [labelled "name" plainName, part "parameters" "formal_parameters",
    labelled "dimensions" (opt (ref "dimensions"))]),
  rule "formal_parameters" (seq ["(",
    choice [ref "receiver_parameter",
      seq [opt (seq [ref "receiver_parameter", ","]),
        list (choice [ref "formal_parameter", ref "spread_parameter"])]], ")"]),
  rule "formal_parameter" (seq [modifiers, plainType, ref "_variable_declarator_id"]),
  rule "receiver_parameter" (seq [annotations, ref "_unannotated_type",
    many (seq [ref "identifier", "."]), ref "this"]),
  rule "spread_parameter" (seq [modifiers, ref "_unannotated_type", "...", annotations,
    ref "variable_declarator"]),
  rule "throws" (seq ["throws", list1 (ref "_type")]),
  rule "local_variable_declaration" (seq [modifiers, plainType, ref "_variable_declarator_list",
    ";"]),
  rule "method_declaration" (seq [modifiers, ref "_method_header",
    choice [part "body" "block", ";"]]),
  rule "compact_constructor_declaration" (seq [modifiers, part "name" "identifier",
    part "body" "block"])]

/-- Words and comments. -/
def words : List (String × Definition) := [
  rule "_reserved_identifier" (choice [rank (-3) (renamed "identifier" (choice ["open", "module",
      "record", "with", "sealed"])), renamed "identifier" "yield"]),
  token "this" (.text "this"),
  token "super" (.text "super"),
  token "identifier" { pattern := .one identifierStart ++ (Pattern.one identifierPart).many },
  token "line_comment" { pattern := "//" ++ (Pattern.noneOf "\n").many },
  token "block_comment" { pattern := .blockComment }]

def grammar : Grammar where
  definitions := literals ++ expressions ++ statements ++ annotationRules ++ modules ++ declarations
    ++ types ++ methods ++ words
  word := "identifier"
  comments := ["line_comment", "block_comment"]
  families := ["expression", "declaration", "statement", "primary_expression", "_literal", "_type",
    "_simple_type", "_unannotated_type", "module_directive"]
  inlined := ["_name", "_simple_type", "_class_body_declaration", "_variable_initializer"]

end CodeAtlas.Syntax.Java
