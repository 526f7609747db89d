namespace Harpia

/-- `Errors.Error.Types`, the members the modelled functions report. -/
inductive ErrorType
  | NON_ASCII_CHAR
  | PARENTESIS_COUNT_ERROR
  | BRAKETS_COUNT_ERROR
  | SQUARE_COUNT_ERROR
  | COMMENTS_COUNT_ERROR
  | IMPORT_INCOMPLETE_ERROR
  | MULTIPLE_INSTANCES_OF_MESSAGES
  | MULTIPLE_INSTANCES_OF_INDEX
  | MALFORMED_PAGINATION
  | MALFORMED_REPETEABLE
  | MALFORMED_MAP
  | VARTYPE_NOT_DEFINED
  | REGEX_NOT_FOUND
  | NO_NAME_IN_MESSAGE
  | TOO_LONG_DEFINITION_OF_ENUMERATOR
  | ENUMNAME_NOT_VALID
  | EXPECTING_A_INTEGER_CONST_VALUE
  | MALFORMED_ENUM_TYPE
  | ENUM_VALUE_MUST_START_THE_LINE
  | LEXICAL_ANALYZER_ERROR
  | FILE_DOES_NOT_END_IN_NEW_LINE
  | RESERVED_FIELD_NUMBER_REUSED
  | CONFLICTING_HARDENING_MODIFIERS
  | RESERVED_HIDDEN_FIELD_NAME
  | IMPORT_CYCLE
  | AUTOKEY_WITHOUT_TABLE
  | AUTOKEY_FK_TARGET
deriving DecidableEq, Repr

/-- Declared with the number of the member before it, which makes it an alias. -/
abbrev ErrorType.NOT_VALID_ENUM : ErrorType := .EXPECTING_A_INTEGER_CONST_VALUE

/-- `Errors.Error.Classes`, likewise. -/
inductive ErrorClass
  | FILE_HAS_ERROR
  | MODIFIERS
  | VARTYPES
  | ENUMTYPES
  | MESSAGES
  | REGEX
deriving DecidableEq, Repr

structure Error where
  errCl : ErrorClass
  errTp : ErrorType
  fileName : String
  fileLine : String
  characterNumber : String
deriving DecidableEq, Repr

end Harpia
