/-! What a pin is for.  A bench drives and samples a model through eleven roles.  Each role has a
direction, a label for messages, and the name that its signal has on a model unless an assignment
says otherwise. -/

namespace PinBench

/-- Which side decides the value of a signal. -/
inductive Direction where
  /-- The bench writes it and the model reads it. -/
  | hostDriven
  /-- The model writes it and the bench samples it. -/
  | hostSampled
  deriving DecidableEq, Repr

def Direction.label : Direction → String
  | .hostDriven => "host-driven"
  | .hostSampled => "host-sampled"

/-- What a pin is for. -/
inductive Role where
  | clock
  | reset
  /-- Serial line into the model. -/
  | uartRx
  /-- Serial line out of the model. -/
  | uartTx
  | gpioIn
  | gpioOut
  | jtagTck
  | jtagTms
  | jtagTdi
  /-- Test reset, active low. -/
  | jtagTrst
  | jtagTdo
  deriving DecidableEq, Repr

namespace Role

abbrev count : Nat := 11

def all : List Role :=
  [.clock, .reset, .uartRx, .uartTx, .gpioIn, .gpioOut, .jtagTck, .jtagTms, .jtagTdi, .jtagTrst,
    .jtagTdo]

/-- The place of a role in the order. -/
def index : Role → Fin count
  | .clock => 0
  | .reset => 1
  | .uartRx => 2
  | .uartTx => 3
  | .gpioIn => 4
  | .gpioOut => 5
  | .jtagTck => 6
  | .jtagTms => 7
  | .jtagTdi => 8
  | .jtagTrst => 9
  | .jtagTdo => 10

theorem all_index (role : Role) : all[role.index.val]? = some role := by cases role <;> rfl

theorem index_inj {r s : Role} (h : r.index = s.index) : r = s := by
  have hr := all_index r
  rw [h, all_index s] at hr
  exact (Option.some.inj hr).symm

/-- The direction that a signal must have to serve a role. -/
def direction : Role → Direction
  | .uartTx | .gpioOut | .jtagTdo => .hostSampled
  | _ => .hostDriven

/-- The signal that serves a role unless an assignment says otherwise. -/
def defaultSignal : Role → String
  | .clock => "clk"
  | .reset => "rst"
  | .uartRx => "i_uart_rx"
  | .uartTx => "o_uart_tx"
  | .gpioIn => "i_sw"
  | .gpioOut => "o_led"
  | .jtagTck => "i_jtag_tck"
  | .jtagTms => "i_jtag_tms"
  | .jtagTdi => "i_jtag_tdi"
  | .jtagTrst => "i_jtag_trst_n"
  | .jtagTdo => "o_jtag_tdo"

def label : Role → String
  | .clock => "clock"
  | .reset => "reset"
  | .uartRx => "uart-rx"
  | .uartTx => "uart-tx"
  | .gpioIn => "gpio-in"
  | .gpioOut => "gpio-out"
  | .jtagTck => "jtag-tck"
  | .jtagTms => "jtag-tms"
  | .jtagTdi => "jtag-tdi"
  | .jtagTrst => "jtag-trst"
  | .jtagTdo => "jtag-tdo"

end Role

end PinBench
