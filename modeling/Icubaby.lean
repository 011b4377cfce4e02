import Icubaby.ForMathlib.Transducer
import Icubaby.ForMathlib.PrefixCode
import Icubaby.ForMathlib.SelfSync
import Icubaby.ForMathlib.Segments
import Icubaby.ForMathlib.Checked
import Icubaby.ForMathlib.Demand
import Icubaby.ForMathlib.CursorRange
import Icubaby.ForMathlib.Sink
import Icubaby.Unicode.CodePoint
import Icubaby.Unicode.Utf8
import Icubaby.Unicode.Utf16
import Icubaby.Unicode.Encoding
import Icubaby.Transcoder.Basic
import Icubaby.Transcoder.Utf32
import Icubaby.Transcoder.Utf8
import Icubaby.Transcoder.Utf16
import Icubaby.Transcoder.Family
import Icubaby.Transcoder.Fields
import Icubaby.Transcoder.Assertions
import Icubaby.Transcoder.Clamp
import Icubaby.Transcoder.Laws
import Icubaby.Transcoder.Online
import Icubaby.Transcoder.Size
import Icubaby.Transcoder.Index
import Icubaby.Transcoder.Segments
import Icubaby.Transcoder.Excerpt
import Icubaby.Transcoder.Prompt
import Icubaby.Transcoder.HandOver
import Icubaby.Byte.States
import Icubaby.Byte.Endian
import Icubaby.Byte.Framing
import Icubaby.Byte.Transcoder
import Icubaby.Byte.Calls
import Icubaby.Byte.Simulation
import Icubaby.Byte.Conversion
import Icubaby.Byte.Assertions
import Icubaby.Byte.Conservation
import Icubaby.Byte.Truncation
import Icubaby.Byte.Dialogue
import Icubaby.Byte.Safety
import Icubaby.Byte.Diagram
import Icubaby.Byte.Size
import Icubaby.Ranges.View
import Icubaby.Ranges.Traversal
import Icubaby.Ranges.Units
import Icubaby.Ranges.Bytes
import Icubaby.Ranges.Positions
import Icubaby.Ranges.Sources
import Icubaby.Ranges.Comparison
import Icubaby.Ranges.Room
import Icubaby.Ranges.Demand
import Icubaby.Ranges.Session
import Icubaby.Ranges.Adaptor
import Icubaby.Ranges.Pipeline
import Icubaby.Output.Iterator
import Icubaby.Output.Chain
import Icubaby.Programs.Demo8
import Icubaby.Programs.Exhaust
import Icubaby.Programs.Fuzz
import Icubaby.Programs.Iconv
import Icubaby.Programs.Performance
