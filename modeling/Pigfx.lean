import Pigfx.Nmalloc.Order
import Pigfx.Nmalloc.Wrap
import Pigfx.Uart
import Pigfx.Timer
import Pigfx.Gfx.Geometry
import Pigfx.Gfx.Lines
import Pigfx.Gfx.Visibility
import Pigfx.Gfx.Exclusive
import Pigfx.Gfx.Variants
import Pigfx.Hotkeys
import Pigfx.Gfx.Containment
import Pigfx.Gfx.Transparency
import Pigfx.Gfx.Refinement
import Pigfx.Gfx.Line
import Pigfx.Gfx.Circle
import Pigfx.Gfx.Polygon
import Pigfx.Gfx.Spans
import Pigfx.Gfx.Text
import Pigfx.Gfx.GraphicCursor
import Pigfx.Gfx.TextOutput
import Pigfx.Gfx.Movement
import Pigfx.Gfx.Rendition
import Pigfx.Gfx.Motion
import Pigfx.Gfx.Erase
import Pigfx.BaudTable
import Pigfx.Framebuffer
import Pigfx.Bell
import Pigfx.Keyboard
import Pigfx.System
import Pigfx.Mailbox.Exchange
import Pigfx.Mailbox.Time
import Pigfx.Property
import Pigfx.Gfx.Replies
import Pigfx.Asm.Receive
import Pigfx.Asm.Sleep
import Pigfx.Asm.Gpio
import Pigfx.Usb.ConfigurationParser
