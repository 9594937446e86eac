import ConstExpr.Class.Basic

/-!
What is known without any source: the keyword constants, the predefined constants, and the built-in
classes whose constants occur in initializers.
-/

namespace ConstExpr.Builtin

def keyword? (name : String) : Option Value :=
  match foldCase name with
  | "true" => some (.bool true)
  | "false" => some (.bool false)
  | "null" => some .null
  | _ => none

private def bits (b : UInt64) : Value := .float (Float.ofBits b)

def constants : Assoc String Value :=
  [ ("PHP_VERSION", .text "8.2.0"),
    ("PHP_VERSION_ID", .int 80200),
    ("PHP_MAJOR_VERSION", .int 8),
    ("PHP_MINOR_VERSION", .int 2),
    ("PHP_RELEASE_VERSION", .int 0),
    ("PHP_EXTRA_VERSION", .text ""),
    ("PHP_OS", .text "linux"),
    ("PHP_OS_FAMILY", .text "Linux"),
    ("PHP_EOL", .text "\n"),
    ("DIRECTORY_SEPARATOR", .text "/"),
    ("PATH_SEPARATOR", .text ":"),
    ("PHP_INT_MAX", .int Int64.maxValue),
    ("PHP_INT_MIN", .int Int64.minValue),
    ("PHP_INT_SIZE", .int 8),
    ("PHP_FLOAT_EPSILON", bits 0x3CB0000000000000),
    ("PHP_FLOAT_MAX", bits 0x7FEFFFFFFFFFFFFF),
    ("PHP_FLOAT_MIN", bits 0x0010000000000000),
    ("PHP_FLOAT_DIG", .int 15),
    ("NAN", bits 0x7FF8000000000000),
    ("INF", bits 0x7FF0000000000000),
    ("M_PI", bits 0x400921FB54442D18),
    ("M_E", bits 0x4005BF0A8B145769),
    ("M_SQRT2", bits 0x3FF6A09E667F3BCD),
    ("E_ERROR", .int 1),
    ("E_WARNING", .int 2),
    ("E_PARSE", .int 4),
    ("E_NOTICE", .int 8),
    ("E_CORE_ERROR", .int 16),
    ("E_CORE_WARNING", .int 32),
    ("E_COMPILE_ERROR", .int 64),
    ("E_COMPILE_WARNING", .int 128),
    ("E_USER_ERROR", .int 256),
    ("E_USER_WARNING", .int 512),
    ("E_USER_NOTICE", .int 1024),
    ("E_STRICT", .int 2048),
    ("E_RECOVERABLE_ERROR", .int 4096),
    ("E_DEPRECATED", .int 8192),
    ("E_USER_DEPRECATED", .int 16384),
    ("E_ALL", .int 32767),
    ("SORT_REGULAR", .int 0),
    ("SORT_NUMERIC", .int 1),
    ("SORT_STRING", .int 2) ]

def classes : List Class :=
  [ .internal "DateTimeInterface" .interface none []
      [ ("ATOM", .text "Y-m-d\\TH:i:sP"),
        ("COOKIE", .text "l, d-M-Y H:i:s T"),
        ("ISO8601", .text "Y-m-d\\TH:i:sO"),
        ("RFC822", .text "D, d M y H:i:s O"),
        ("RFC2822", .text "D, d M Y H:i:s O"),
        ("RFC3339", .text "Y-m-d\\TH:i:sP"),
        ("RFC3339_EXTENDED", .text "Y-m-d\\TH:i:s.vP"),
        ("RSS", .text "D, d M Y H:i:s O"),
        ("W3C", .text "Y-m-d\\TH:i:sP") ],
    .internal "DateTime" .cls none ["DateTimeInterface"] [],
    .internal "DateTimeImmutable" .cls none ["DateTimeInterface"] [],
    .internal "ArrayObject" .cls none ["IteratorAggregate", "ArrayAccess", "Countable"]
      [("STD_PROP_LIST", .int 1), ("ARRAY_AS_PROPS", .int 2)],
    .internal "Traversable" .interface none [] [],
    .internal "IteratorAggregate" .interface none ["Traversable"] [],
    .internal "ArrayAccess" .interface none [] [],
    .internal "Countable" .interface none [] [],
    .internal "Throwable" .interface none [] [],
    .internal "Exception" .cls none ["Throwable"] [],
    .internal "JsonException" .cls (some "Exception") [] [] ]

end ConstExpr.Builtin
